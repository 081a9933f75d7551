import ByteMachine.Text.Blank
import ByteMachine.Text.Split
import Mathlib

/-! # Trimming, words and lines: what they keep of a text, and how they undo joining -/
namespace ByteMachine.Text

/-- No blank at either end. -/
def Trimmed (cs : List Char) : Prop :=
  (∀ c ∈ cs.head?, isBlank c = false) ∧ ∀ c ∈ cs.getLast?, isBlank c = false

theorem trimStart_eq_self_of_head {cs : List Char} (h : ∀ c ∈ cs.head?, isBlank c = false) : trimStart cs = cs := by
  cases cs with
  | nil => rfl
  | cons c cs => simp [trimStart, h c rfl]

theorem trimEnd_eq_self_of_getLast {cs : List Char} (h : ∀ c ∈ cs.getLast?, isBlank c = false) : trimEnd cs = cs := by
  change cs.rdropWhile isBlank = cs
  rw [List.rdropWhile_eq_self_iff]
  intro hcs
  simp [h _ (List.getLast?_eq_some_getLast hcs)]

theorem trim_eq_self {cs : List Char} (h : Trimmed cs) : trim cs = cs := by
  rw [trim, trimStart_eq_self_of_head h.1, trimEnd_eq_self_of_getLast h.2]

theorem trim_of_forall_blank {cs : List Char} (h : ∀ c ∈ cs, isBlank c = true) : trim cs = [] := by
  have hs : trimStart cs = [] := by simpa [trimStart] using h
  rw [trim, hs]
  rfl

theorem head?_trimStart (cs : List Char) : ∀ c ∈ (trimStart cs).head?, isBlank c = false := by
  intro c hc
  have h := List.head?_dropWhile_not isBlank cs
  rw [trimStart] at hc
  simpa [Option.mem_def.mp hc] using h

theorem trimmed_trim (cs : List Char) : Trimmed (trim cs) := by
  constructor
  · intro c hc
    obtain ⟨post, hpost⟩ : trim cs <+: trimStart cs := List.rdropWhile_prefix isBlank _
    apply head?_trimStart cs
    rw [← hpost, List.head?_append, Option.mem_def.mp hc]
    rfl
  · intro c hc
    have hne : trim cs ≠ [] := by
      rintro h
      simp [h] at hc
    have hl : ¬ isBlank ((trim cs).getLast hne) = true := List.rdropWhile_last_not isBlank (trimStart cs) hne
    rw [List.getLast?_eq_some_getLast hne] at hc
    simpa [← Option.some.inj hc] using hl

/-- Trimming takes away blanks only. -/
theorem exists_eq_append_trim (cs : List Char) :
    ∃ pre post, cs = pre ++ trim cs ++ post ∧ (∀ c ∈ pre, isBlank c = true) ∧ ∀ c ∈ post, isBlank c = true := by
  refine ⟨cs.takeWhile isBlank, (trimStart cs).rtakeWhile isBlank, ?_, ?_, ?_⟩
  · have he : trim cs ++ (trimStart cs).rtakeWhile isBlank = trimStart cs :=
      List.rdropWhile_append_rtakeWhile
    rw [List.append_assoc, he]
    exact List.takeWhile_append_dropWhile.symm
  · exact fun c hc => List.mem_takeWhile_imp hc
  · exact fun c hc => List.mem_rtakeWhile_imp hc

theorem trim_append_of_blank {pre post : List Char} (cs : List Char) (hpre : ∀ c ∈ pre, isBlank c = true)
    (hpost : ∀ c ∈ post, isBlank c = true) (h : Trimmed cs) : trim (pre ++ cs ++ post) = cs := by
  cases cs with
  | nil =>
    apply trim_of_forall_blank
    intro c hc
    rcases List.mem_append.mp hc with hc | hc
    · exact hpre c (by simpa using hc)
    · exact hpost c hc
  | cons d ds =>
    have hs : trimStart (pre ++ (d :: ds) ++ post) = (d :: ds) ++ post := by
      rw [trimStart, List.append_assoc, List.dropWhile_append_of_pos hpre]
      simp [h.1 d rfl]
    have he : trimEnd ((d :: ds) ++ post) = trimEnd (d :: ds) := by
      have hr : ∀ c ∈ post.reverse, isBlank c = true := fun c hc => hpost c (List.mem_reverse.mp hc)
      rw [trimEnd, List.reverse_append, List.dropWhile_append_of_pos hr, trimEnd]
    rw [trim, hs, he, trimEnd_eq_self_of_getLast h.2]

/-- The trimmed text is the only part of a text with blanks alone on both sides and none at its ends. -/
theorem trim_eq_iff {cs body : List Char} : trim cs = body ↔ Trimmed body ∧
    ∃ pre post, cs = pre ++ body ++ post ∧ (∀ c ∈ pre, isBlank c = true) ∧ ∀ c ∈ post, isBlank c = true := by
  constructor
  · rintro rfl
    exact ⟨trimmed_trim cs, exists_eq_append_trim cs⟩
  · rintro ⟨hb, pre, post, rfl, hpre, hpost⟩
    exact trim_append_of_blank body hpre hpost hb

@[simp] theorem words_nil (p : Char → Bool) : words p [] = [] := rfl

theorem pieces_ne_nil (p : Char → Bool) (cs : List Char) : pieces p cs ≠ [] := by
  cases cs with
  | nil => simp
  | cons c cs =>
    rw [pieces_cons]
    split
    · simp
    · cases pieces p cs <;> simp [consHead]

/-- A separator ends a piece: those on its two sides are cut apart from each other. -/
theorem pieces_append_cons {p : Char → Bool} {c : Char} (hc : p c = true) (xs ys : List Char) :
    pieces p (xs ++ c :: ys) = pieces p xs ++ pieces p ys := by
  induction xs with
  | nil => simp [pieces_cons, hc]
  | cons x xs ih =>
    rw [List.cons_append, pieces_cons, pieces_cons, ih]
    obtain ⟨w, ws, hw⟩ := List.exists_cons_of_ne_nil (pieces_ne_nil p xs)
    split <;> simp [hw, consHead]

theorem words_append_cons {p : Char → Bool} {c : Char} (hc : p c = true) (xs ys : List Char) :
    words p (xs ++ c :: ys) = words p xs ++ words p ys := by
  rw [words, pieces_append_cons hc, List.filter_append, words, words]

theorem words_cons_of_pos {p : Char → Bool} {c : Char} (hc : p c = true) (cs : List Char) :
    words p (c :: cs) = words p cs := by
  simpa using words_append_cons hc [] cs

theorem words_append_of_forall {p : Char → Bool} {gap : List Char} (h : ∀ c ∈ gap, p c = true) (cs : List Char) :
    words p (gap ++ cs) = words p cs := by
  induction gap with
  | nil => rfl
  | cons c gap ih =>
    rw [List.cons_append, words_cons_of_pos (h c List.mem_cons_self)]
    exact ih fun d hd => h d (List.mem_cons_of_mem c hd)

theorem words_of_forall {p : Char → Bool} {gap : List Char} (h : ∀ c ∈ gap, p c = true) : words p gap = [] := by
  simpa using words_append_of_forall h []

theorem pieces_of_forall_not {p : Char → Bool} {w : List Char} (h : ∀ c ∈ w, p c = false) : pieces p w = [w] := by
  induction w with
  | nil => rfl
  | cons c w ih =>
    have hw := ih fun d hd => h d (List.mem_cons_of_mem c hd)
    simp [pieces_cons, h c List.mem_cons_self, hw, consHead]

theorem words_of_forall_not {p : Char → Bool} {w : List Char} (hne : w ≠ []) (h : ∀ c ∈ w, p c = false) :
    words p w = [w] := by
  simp [words, pieces_of_forall_not h, hne]

theorem words_append_of_head {p : Char → Bool} {w rest : List Char} (hne : w ≠ []) (h : ∀ c ∈ w, p c = false)
    (hr : ∀ c ∈ rest.head?, p c = true) : words p (w ++ rest) = w :: words p rest := by
  have hw := words_of_forall_not hne h
  cases rest with
  | nil => simpa using hw
  | cons d ds => rw [words_append_cons (hr d rfl), hw, words_cons_of_pos (hr d rfl), List.singleton_append]

/-- Words joined by a gap of separators come apart again. -/
theorem words_intercalate {p : Char → Bool} {gap : List Char} (hgap : gap ≠ []) (hp : ∀ c ∈ gap, p c = true)
    {ws : List (List Char)} (h : ∀ w ∈ ws, w ≠ [] ∧ ∀ c ∈ w, p c = false) : words p (gap.intercalate ws) = ws := by
  obtain ⟨g, gs, rfl⟩ := List.exists_cons_of_ne_nil hgap
  induction ws with
  | nil => rfl
  | cons w ws ih =>
    obtain ⟨hw, hws⟩ := List.forall_mem_cons.mp h
    have hone : words p w = [w] := words_of_forall_not hw.1 hw.2
    cases ws with
    | nil => simpa using hone
    | cons v vs =>
      have hj : (g :: gs).intercalate (w :: v :: vs) = w ++ g :: (gs ++ (g :: gs).intercalate (v :: vs)) := by
        simp [List.intercalate]
      rw [hj, words_append_cons (hp g List.mem_cons_self), hone,
        words_append_of_forall (fun c hc => hp c (List.mem_cons_of_mem g hc)), ih hws]
      rfl

theorem mem_intercalate {c : Char} {gap : List Char} {ws : List (List Char)} (h : c ∈ gap.intercalate ws) :
    c ∈ gap ∨ ∃ w ∈ ws, c ∈ w := by
  induction ws with
  | nil => simp [List.intercalate] at h
  | cons w ws ih =>
    cases ws with
    | nil =>
      simp only [List.intercalate_singleton] at h
      exact .inr ⟨w, List.mem_cons_self, h⟩
    | cons v vs =>
      rw [List.intercalate_cons_cons, List.append_assoc] at h
      rcases List.mem_append.mp h with h | h
      · exact .inr ⟨w, List.mem_cons_self, h⟩
      · rcases List.mem_append.mp h with h | h
        · exact .inl h
        · exact (ih h).imp_right fun ⟨u, hu, hc⟩ => ⟨u, List.mem_cons_of_mem w hu, hc⟩

theorem exists_last_of_forall_ne_nil {ws : List (List Char)} (hne : ws ≠ []) (h : ∀ w ∈ ws, w ≠ []) :
    ∃ c, ws.getLast?.bind List.getLast? = some c := by
  have hl : ws.getLast hne ≠ [] := h _ (List.getLast_mem hne)
  refine ⟨(ws.getLast hne).getLast hl, ?_⟩
  rw [List.getLast?_eq_some_getLast hne, Option.bind_some, List.getLast?_eq_some_getLast hl]

theorem getLast?_intercalate (gap : List Char) {ws : List (List Char)} (h : ∀ w ∈ ws, w ≠ []) :
    (gap.intercalate ws).getLast? = ws.getLast?.bind List.getLast? := by
  induction ws with
  | nil => rfl
  | cons w ws ih =>
    have hws := (List.forall_mem_cons.mp h).2
    cases ws with
    | nil => simp
    | cons v vs =>
      obtain ⟨c, hc⟩ := exists_last_of_forall_ne_nil (by simp) hws
      rw [List.intercalate_cons_cons, List.getLast?_append, ih hws, List.getLast?_cons_cons, hc]
      rfl

/-- A line without the carriage return that belongs to its end. -/
def dropReturn (line : List Char) : List Char := if line.getLast? = some '\r' then line.dropLast else line

private theorem foldr_lineStep {l : List Char} (h : '\n' ∉ l) (w : List Char) (ls : List (List Char)) :
    l.foldr lineStep (w :: ls, false) = ((l ++ w) :: ls, false) := by
  induction l with
  | nil => rfl
  | cons c l ih =>
    obtain ⟨hc, hl⟩ := not_or.mp (mt List.mem_cons.mpr h)
    simp [ih hl, lineStep, Ne.symm hc, consHead]

theorem lines_of_notMem {l : List Char} (hne : l ≠ []) (h : '\n' ∉ l) : lines l = [l] := by
  obtain ⟨init, c, rfl⟩ := (List.eq_nil_or_concat' l).resolve_left hne
  have hi : '\n' ∉ init := fun hm => h (List.mem_append_left [c] hm)
  have hc : c ≠ '\n' := by
    rintro rfl
    exact h (by simp)
  have hs : lineStep c ([], false) = ([[c]], false) := by simp [lineStep, hc, consHead]
  rw [lines, List.foldr_append, List.foldr_cons, List.foldr_nil, hs, foldr_lineStep hi]

/-- The first line feed ends the first line. -/
theorem lines_append_newline {l : List Char} (h : '\n' ∉ l) (rest : List Char) :
    lines (l ++ '\n' :: rest) = dropReturn l :: lines rest := by
  have hn : ('\n' :: rest).foldr lineStep ([], false) = ([] :: lines rest, true) := rfl
  rw [lines, List.foldr_append, hn]
  rcases List.eq_nil_or_concat' l with rfl | ⟨init, c, rfl⟩
  · rfl
  · have hi : '\n' ∉ init := fun hm => h (List.mem_append_left [c] hm)
    have hc : c ≠ '\n' := by
      rintro rfl
      exact h (by simp)
    rw [List.foldr_append, List.foldr_cons, List.foldr_nil]
    by_cases hr : c = '\r'
    · have hs : lineStep c ([] :: lines rest, true) = ([] :: lines rest, false) := by simp [lineStep, hr]
      rw [hs, foldr_lineStep hi]
      simp [dropReturn, hr]
    · have hs : lineStep c ([] :: lines rest, true) = ([c] :: lines rest, false) := by
        simp [lineStep, hc, hr, consHead]
      rw [hs, foldr_lineStep hi]
      simp [dropReturn, hr]

/-- Induction on the line feeds of a text, from the last one to the first. -/
@[elab_as_elim]
theorem lineInduction {motive : List Char → Prop} (last : ∀ l, '\n' ∉ l → motive l)
    (feed : ∀ l rest, '\n' ∉ l → motive rest → motive (l ++ '\n' :: rest)) (source : List Char) : motive source := by
  induction hn : source.length using Nat.strong_induction_on generalizing source with
  | _ n ih =>
    by_cases hm : '\n' ∈ source
    · obtain ⟨l, rest, rfl, hl⟩ := List.eq_append_cons_of_mem hm
      have hlt : rest.length < n := by
        rw [← hn, List.length_append, List.length_cons]
        omega
      exact feed l rest hl (ih _ hlt rest rfl)
    · exact last source hm

theorem unlines_cons_cons (l k : List Char) (ks : List (List Char)) :
    unlines (l :: k :: ks) = l ++ '\n' :: unlines (k :: ks) := by
  simp [unlines, List.intercalate]

/-- Lines joined by line feeds are found again, if none of them is empty, holds a line feed or ends in a carriage
return. -/
theorem lines_unlines {ls : List (List Char)} (h : ∀ l ∈ ls, l ≠ [] ∧ '\n' ∉ l ∧ l.getLast? ≠ some '\r') :
    lines (unlines ls) = ls := by
  induction ls with
  | nil => rfl
  | cons l ls ih =>
    obtain ⟨⟨hne, hn, hr⟩, hls⟩ := List.forall_mem_cons.mp h
    cases ls with
    | nil => simpa [unlines, List.intercalate] using lines_of_notMem hne hn
    | cons k ks => rw [unlines_cons_cons, lines_append_newline hn, ih hls, dropReturn, if_neg hr]

end ByteMachine.Text
