import ByteMachine.Shell.Path
import Mathlib

/-! # File names: how the extension of a name is replaced

Names are taken apart from their end, so most lemmas speak of texts that are written backwards. -/
namespace ByteMachine.Path

theorem bne_of_notMem {d : Char} {cs : List Char} (h : d ∉ cs) : ∀ c ∈ cs, (c != d) = true := by
  intro c hc
  rw [bne_iff_ne]
  rintro rfl
  exact h hc

section Backwards

variable {old name parent : List Char}

theorem dropWhile_extension (hold : '.' ∉ old) (name : List Char) :
    (old ++ '.' :: name).dropWhile (· != '.') = '.' :: name := by
  rw [List.dropWhile_append_of_pos (bne_of_notMem hold)]
  rfl

theorem stem_extension (hold : '.' ∉ old) (hne : name ≠ []) : stem (old ++ '.' :: name) = name := by
  simp [stem, dropWhile_extension hold, hne]

theorem clipped_extension (hold : '.' ∉ old) (hne : name ≠ []) : clipped (old ++ '.' :: name) = '.' :: name := by
  simp [clipped, dropWhile_extension hold, hne]

/-- Nothing stands before the only dot that a name without an extension may have. -/
theorem drop_dropWhile_of_notMem (h : '.' ∉ name.dropLast) : (name.dropWhile (· != '.')).drop 1 = [] := by
  obtain rfl | ⟨front, c, rfl⟩ := List.eq_nil_or_concat name
  · rfl
  · rw [List.concat_eq_append] at h ⊢
    rw [List.dropLast_concat] at h
    rw [List.dropWhile_append_of_pos (bne_of_notMem h)]
    cases hc : (c != '.') <;> simp [hc]

theorem stem_of_notMem (h : '.' ∉ name.dropLast) : stem name = name := by
  simp [stem, drop_dropWhile_of_notMem h]

theorem clipped_of_notMem (h : '.' ∉ name.dropLast) : clipped name = name := by
  simp [clipped, drop_dropWhile_of_notMem h]

theorem isFileName_iff : isFileName name = true ↔ name ≠ [] ∧ name ≠ ['.'] ∧ name ≠ ['.', '.'] := by
  simp [isFileName, and_assoc]

theorem dropTail_of_isFileName (hname : '/' ∉ name) (hfile : isFileName name = true) (parent : List Char) :
    dropTail (name ++ parent) = name ++ parent := by
  obtain ⟨hne, hdot, -⟩ := isFileName_iff.mp hfile
  unfold dropTail
  split
  · rename_i heq
    cases name <;> simp_all
  · rename_i heq
    rcases name with _ | ⟨c, _ | ⟨d, cs⟩⟩ <;> simp_all
  · rfl

theorem takeWhile_slash (hname : '/' ∉ name) (hparent : ∀ c ∈ parent.head?, c = '/') :
    (name ++ parent).takeWhile (· != '/') = name := by
  have hstop : parent.takeWhile (· != '/') = [] := by
    cases parent with
    | nil => rfl
    | cons c cs => simp [hparent c rfl]
  rw [List.takeWhile_append_of_pos (bne_of_notMem hname), hstop, List.append_nil]

theorem withExtension_of_isFileName (hname : '/' ∉ name) (hparent : ∀ c ∈ parent.head?, c = '/')
    (hfile : isFileName name = true) (hclip : isFileName (clipped name) = true) (extension : String) :
    withExtension (String.ofList (name ++ parent).reverse) extension =
      String.ofList ((stem name ++ parent).reverse ++ '.' :: extension.toList) := by
  rw [withExtension, String.toList_ofList, List.reverse_reverse, dropTail_of_isFileName hname hfile]
  simp [takeWhile_slash hname hparent, hfile, hclip]

end Backwards

section Names

variable {parent name old : List Char} (hparent : ∀ c ∈ parent.getLast?, c = '/')

include hparent

/-- The extension of a name, from its last dot on, gives way to the new one. -/
theorem withExtension_of_extension (hne : name ≠ []) (hdot : name ≠ ['.']) (hname : '/' ∉ name)
    (hold : '.' ∉ old ∧ '/' ∉ old) (extension : String) :
    withExtension (String.ofList (parent ++ name ++ '.' :: old)) extension =
      String.ofList (parent ++ name ++ '.' :: extension.toList) := by
  have hne' : name.reverse ≠ [] := by simpa using hne
  have hdot' : name.reverse ≠ ['.'] := by simpa using hdot
  have hold' : '.' ∉ old.reverse := by simpa using hold.1
  have hslash : '/' ∉ old.reverse ++ '.' :: name.reverse := by simp [hold.2, hname]
  have hfile : isFileName (old.reverse ++ '.' :: name.reverse) = true := by
    rw [isFileName_iff]
    rcases old.reverse with _ | ⟨c, _ | ⟨d, cs⟩⟩ <;> simp [hne, hdot']
  have hclip : isFileName (clipped (old.reverse ++ '.' :: name.reverse)) = true := by
    rw [clipped_extension hold' hne', isFileName_iff]
    simp [hne, hdot']
  have hparent' : ∀ c ∈ parent.reverse.head?, c = '/' := by rwa [List.head?_reverse]
  have h := withExtension_of_isFileName hslash hparent' hfile hclip extension
  rw [stem_extension hold' hne'] at h
  simpa using h

/-- A name without an extension gets one. A dot in front of it does not begin one. -/
theorem withExtension_of_notMem (hne : name ≠ []) (hdot : name ≠ ['.']) (hname : '/' ∉ name) (hnone : '.' ∉ name.tail)
    (extension : String) :
    withExtension (String.ofList (parent ++ name)) extension =
      String.ofList (parent ++ name ++ '.' :: extension.toList) := by
  have hnone' : '.' ∉ name.reverse.dropLast := by simpa using hnone
  have hslash : '/' ∉ name.reverse := by simpa using hname
  have hfile : isFileName name.reverse = true := by
    rw [isFileName_iff]
    refine ⟨by simpa using hne, by simpa using hdot, ?_⟩
    intro hdots
    simp [hdots] at hnone'
  have hclip : isFileName (clipped name.reverse) = true := by rwa [clipped_of_notMem hnone']
  have hparent' : ∀ c ∈ parent.reverse.head?, c = '/' := by rwa [List.head?_reverse]
  have h := withExtension_of_isFileName hslash hparent' hfile hclip extension
  rw [stem_of_notMem hnone'] at h
  simpa using h

end Names

end ByteMachine.Path
