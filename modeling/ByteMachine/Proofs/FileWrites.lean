import ByteMachine.Shell.Host
import Mathlib

/-! # File writes: what a write leaves at its own path and at every other

A file is written at a place whose directory is there. So no other place changes, and every path that led somewhere else
still leads there. -/
namespace ByteMachine

namespace FileSystem

/-- The place of a file, or of a file that could be made. -/
def Target.place? : Target → Option Place
  | file place _ | vacant place => some place
  | directory | device _ _ => none

/-- The place of the file that a path leads to, or that could be made there. -/
def place? (fs : FileSystem) (home : Place) (path : String) : Option Place :=
  match fs.locate home path with
  | .ok target => target.place?
  | .error _ => none

def IsName (name : String) : Prop := name ≠ "." ∧ name ≠ ".." ∧ name.utf8ByteSize ≤ Path.maxNameSize

theorem IsName.of_not {name : String} (hdot : ¬ (name == ".") = true) (hup : ¬ (name == "..") = true)
    (hfits : ¬ Path.maxNameSize < name.utf8ByteSize) : IsName name :=
  ⟨by simpa using hdot, by simpa using hup, Nat.not_lt.mp hfits⟩

/-- Names followed from a directory to where they lead. -/
inductive Leads (fs : FileSystem) : Place → List String → Target → Prop
  | here (here) : Leads fs here [] .directory
  | stay {here rest target} (more : Leads fs here rest target) : Leads fs here ("." :: rest) target
  | up {here rest target} (more : Leads fs here.dropLast rest target) : Leads fs here (".." :: rest) target
  | down {place name rest target} (named : IsName name) (node : fs.node? (place ++ [name]) = some .directory)
      (more : Leads fs (place ++ [name]) rest target) : Leads fs place (name :: rest) target
  | file {place name content} (named : IsName name) (node : fs.node? (place ++ [name]) = some (.file content)) :
      Leads fs place [name] (.file (place ++ [name]) content)
  | device {place name port} (named : IsName name) (node : fs.node? (place ++ [name]) = some (.device port)) :
      Leads fs place [name] (.device (place ++ [name]) port)
  | vacant {place name} (named : IsName name) (node : fs.node? (place ++ [name]) = none) :
      Leads fs place [name] (.vacant (place ++ [name]))

theorem Leads.walk_eq {fs : FileSystem} {here : Place} {names : List String} {target : Target}
    (h : Leads fs here names target) : fs.walk here names = .ok target := by
  induction h with
  | here here => rfl
  | stay more ih => simpa [walk] using ih
  | up more ih => simpa [walk] using ih
  | down named node more ih => simp [walk, named.1, named.2.1, Nat.not_lt.mpr named.2.2, node, ih]
  | file named node | device named node | vacant named node =>
    simp [walk, named.1, named.2.1, Nat.not_lt.mpr named.2.2, node]

theorem Leads.of_walk {fs : FileSystem} {here : Place} {names : List String} {target : Target}
    (h : fs.walk here names = .ok target) : Leads fs here names target := by
  fun_induction walk fs here names with
  | case1 here =>
    cases h
    exact .here here
  | case2 here name rest hdot ih =>
    rw [beq_iff_eq.mp hdot]
    exact .stay (ih h)
  | case3 here name rest hdot hup ih =>
    rw [beq_iff_eq.mp hup]
    exact .up (ih h)
  | case5 here name rest hdot hup hfits next hnode ih =>
    exact .down (.of_not hdot hup hfits) hnode (ih h)
  | case6 here name hdot hup hfits next content hnode =>
    cases h
    exact .file (.of_not hdot hup hfits) hnode
  | case7 here name hdot hup hfits next port hnode =>
    cases h
    exact .device (.of_not hdot hup hfits) hnode
  | case9 here name hdot hup hfits next hnode =>
    cases h
    exact .vacant (.of_not hdot hup hfits) hnode
  | case4 | case8 | case10 => cases h

theorem walk_eq_ok_iff {fs : FileSystem} {here : Place} {names : List String} {target : Target} :
    fs.walk here names = .ok target ↔ Leads fs here names target := ⟨Leads.of_walk, Leads.walk_eq⟩

/-- A directory that is there, with all that are above it. -/
def Standing (fs : FileSystem) (place : Place) : Prop :=
  ∀ part, part <+: place → part ≠ [] → fs.node? part = some .directory

/-- A place where a file stands or can be made, in a directory that is there. -/
structure Slot (fs : FileSystem) (place : Place) : Prop where
  free : fs.node? place = none ∨ ∃ content, fs.node? place = some (.file content)
  parents : ∀ part, part <+: place → part ≠ place → part ≠ [] → fs.node? part = some .directory

theorem Standing.concat {fs : FileSystem} {place : Place} {name : String} (h : Standing fs place)
    (node : fs.node? (place ++ [name]) = some .directory) : Standing fs (place ++ [name]) := by
  intro part hpart hne
  obtain rfl | hpart := List.prefix_concat_iff.mp hpart
  · exact node
  · exact h part hpart hne

theorem Standing.slot {fs : FileSystem} {place : Place} {name : String} (h : Standing fs place)
    (free : fs.node? (place ++ [name]) = none ∨ ∃ content, fs.node? (place ++ [name]) = some (.file content)) :
    Slot fs (place ++ [name]) where
  free := free
  parents part hpart hproper hne := h part ((List.prefix_concat_iff.mp hpart).resolve_left hproper) hne

theorem Standing.dropLast {fs : FileSystem} {place : Place} (h : Standing fs place) : Standing fs place.dropLast :=
  fun part hpart hne => h part (hpart.trans (List.dropLast_prefix place)) hne

/-- Directories are gone through one by one, so all that are above the place in the end are there. -/
theorem Leads.slot {fs : FileSystem} {here : Place} {names : List String} {target : Target}
    (h : Leads fs here names target) (standing : Standing fs here) {place : Place}
    (hplace : target.place? = some place) : Slot fs place := by
  induction h with
  | here here => cases hplace
  | stay more ih => exact ih standing hplace
  | up more ih => exact ih standing.dropLast hplace
  | down named node more ih => exact ih (standing.concat node) hplace
  | file named node =>
    cases hplace
    exact standing.slot (.inr ⟨_, node⟩)
  | device named node => cases hplace
  | vacant named node =>
    cases hplace
    exact standing.slot (.inl node)

theorem node?_put_self (fs : FileSystem) (place : Place) (content : ByteArray) :
    (fs.put place content).node? place = some (.file content) := by
  simp [node?, put]

theorem find?_put {fs : FileSystem} {place other : Place} (content : ByteArray) (hne : other ≠ place) :
    (fs.put place content).entries.find? (·.1 == other) = fs.entries.find? (·.1 == other) := by
  have hhead : (place == other) = false := beq_eq_false_iff_ne.mpr hne.symm
  rw [put, List.find?_cons_of_neg (by simp [hhead]), List.find?_filter]
  congr
  funext entry
  by_cases hentry : entry.1 = other
  · simp [hentry, hne]
  · simp [hentry]

theorem any_isPrefixOf_put {fs : FileSystem} {place other : Place} (content : ByteArray) (h : ¬ other <+: place) :
    (fs.put place content).entries.any (other.isPrefixOf ·.1) = fs.entries.any (other.isPrefixOf ·.1) := by
  have hhead : other.isPrefixOf place = false := by simpa [Bool.eq_false_iff] using h
  rw [put, List.any_cons, hhead, Bool.false_or, List.any_filter]
  congr
  funext entry
  by_cases hentry : entry.1 = place
  · simp [hentry, hhead]
  · simp [hentry]

/-- A file that is written changes no other place. -/
theorem Slot.node?_put {fs : FileSystem} {place other : Place} (h : Slot fs place) (content : ByteArray)
    (hne : other ≠ place) : (fs.put place content).node? other = fs.node? other := by
  by_cases habove : other <+: place ∧ other ≠ []
  · -- a directory above the place stays one, whether or not it has an entry of its own
    have hnode := h.parents other habove.1 hne habove.2
    rw [hnode]
    unfold node? at hnode ⊢
    rw [find?_put content hne]
    split at hnode
    · exact hnode
    · simp [put, habove.1]
  · unfold node?
    rw [find?_put content hne]
    by_cases hempty : other = []
    · simp [hempty]
    · rw [any_isPrefixOf_put content fun hp => habove ⟨hp, hempty⟩]

/-- No file is written in the place of a directory or a device. -/
theorem Slot.ne_of_node? {fs : FileSystem} {place other : Place} (h : Slot fs place) {node : Node}
    (hnode : fs.node? other = some node) (hfile : ∀ content, node ≠ .file content) : other ≠ place := by
  rintro rfl
  obtain hnone | ⟨content, hcontent⟩ := h.free
  · cases hnode.symm.trans hnone
  · exact hfile content (Option.some.inj (hnode.symm.trans hcontent))

/-- Where a path leads when a file has been written at a place. -/
def Target.afterPut (place : Place) (content : ByteArray) (target : Target) : Target :=
  if target.place? = some place then .file place content else target

theorem Target.afterPut_of_eq {target : Target} {place : Place} (h : target.place? = some place)
    (content : ByteArray) : target.afterPut place content = .file place content := if_pos h

theorem Target.afterPut_of_ne {target : Target} {place : Place} (h : target.place? ≠ some place)
    (content : ByteArray) : target.afterPut place content = target := if_neg h

/-- A path that leads to the place leads to the new file there, and one that leads elsewhere still does. -/
theorem Leads.put {fs : FileSystem} {place : Place} (h : Slot fs place) (content : ByteArray) {here : Place}
    {names : List String} {target : Target} (hleads : Leads fs here names target) :
    Leads (fs.put place content) here names (target.afterPut place content) := by
  induction hleads with
  | here here => exact .here here
  | stay more ih => exact .stay ih
  | up more ih => exact .up ih
  | down named node more ih =>
    have hne := h.ne_of_node? node nofun
    exact .down named (by rw [h.node?_put content hne, node]) ih
  | @file dir name old named node =>
    by_cases hplace : (Target.file (dir ++ [name]) old).place? = some place
    · rw [Target.afterPut_of_eq hplace, ← Option.some.inj hplace]
      exact .file named (node?_put_self _ _ _)
    · have hne : dir ++ [name] ≠ place := fun he => hplace (congrArg some he)
      rw [Target.afterPut_of_ne hplace]
      exact .file named (by rw [h.node?_put content hne, node])
  | device named node =>
    have hne := h.ne_of_node? node nofun
    exact .device named (by rw [h.node?_put content hne, node])
  | @vacant dir name named node =>
    by_cases hplace : (Target.vacant (dir ++ [name])).place? = some place
    · rw [Target.afterPut_of_eq hplace, ← Option.some.inj hplace]
      exact .file named (node?_put_self _ _ _)
    · have hne : dir ++ [name] ≠ place := fun he => hplace (congrArg some he)
      rw [Target.afterPut_of_ne hplace]
      exact .vacant named (by rw [h.node?_put content hne, node])

theorem locate_eq_ok_iff {fs : FileSystem} {home : Place} {path : String} {target : Target} :
    fs.locate home path = .ok target ↔
      (Path.holdsNul path = false ∧ path.isEmpty = false ∧ path.utf8ByteSize ≤ Path.maxSize) ∧
        Leads fs [] ((if Path.isAbsolute path then [] else home) ++ Path.components path) target := by
  unfold locate
  split
  · simp_all
  · split
    · simp_all
    · split
      · simp_all
      · simp_all [walk_eq_ok_iff]

section Writing

variable {fs : FileSystem} {home : Place} {path : String} {place : Place} {target : Target} {content old : ByteArray}

theorem slot_of_locate (h : fs.locate home path = .ok target) (hplace : target.place? = some place) : Slot fs place := by
  obtain ⟨-, hleads⟩ := locate_eq_ok_iff.mp h
  apply hleads.slot _ hplace
  intro part hpart hne
  exact absurd (List.prefix_nil.mp hpart) hne

theorem locate_put (h : Slot fs place) (content : ByteArray) (hpath : fs.locate home path = .ok target) :
    (fs.put place content).locate home path = .ok (target.afterPut place content) := by
  obtain ⟨hvalid, hleads⟩ := locate_eq_ok_iff.mp hpath
  exact locate_eq_ok_iff.mpr ⟨hvalid, hleads.put h content⟩

theorem place?_eq_some_iff : fs.place? home path = some place ↔
    ∃ target, fs.locate home path = .ok target ∧ target.place? = some place := by
  unfold place?
  cases fs.locate home path <;> simp

theorem slot_of_place? (h : fs.place? home path = some place) : Slot fs place := by
  obtain ⟨target, hlocate, htarget⟩ := place?_eq_some_iff.mp h
  exact slot_of_locate hlocate htarget

theorem permit_eq_ok_iff {α : Type} {access : Access} {a b : α} :
    fs.permit place access a = .ok b ↔ fs.refusal place access = none ∧ a = b := by
  unfold permit
  cases fs.refusal place access <;> simp

/-- Content goes to a file if the path can be that of one and the system takes it. -/
theorem sink_eq_file_iff : fs.sink home path content = .ok (.file place) ↔
    fs.place? home path = some place ∧ Path.endsInSlash path = false ∧ fs.refusal place (.write content) = none := by
  unfold sink place?
  cases fs.locate home path with
  | error e => simp
  | ok target =>
    cases target with
    | directory => simp [Target.place?]
    | device dir port => cases Path.endsInSlash path <;> simp [Target.place?, permit_eq_ok_iff]
    | file dir old | vacant dir =>
      cases Path.endsInSlash path with
      | true => simp
      | false =>
        simp only [Target.place?, Bool.false_eq_true, if_false, permit_eq_ok_iff, Sink.file.injEq, Option.some.injEq,
          true_and]
        constructor
        · rintro ⟨hrefusal, rfl⟩
          exact ⟨rfl, hrefusal⟩
        · rintro ⟨rfl, hrefusal⟩
          exact ⟨hrefusal, rfl⟩

theorem exists_device_of_sink {port : Port} (h : fs.sink home path content = .ok (.port port)) :
    ∃ place, fs.locate home path = .ok (.device place port) := by
  unfold sink at h
  cases hlocate : fs.locate home path with
  | error e => simp [hlocate] at h
  | ok target =>
    cases target with
    | directory => simp [hlocate] at h
    | file dir old | vacant dir => cases hslash : Path.endsInSlash path <;> simp [hlocate, hslash, permit_eq_ok_iff] at h
    | device dir other =>
      cases hslash : Path.endsInSlash path with
      | true => simp [hlocate, hslash] at h
      | false =>
        simp only [hlocate, hslash, Bool.false_eq_true, if_false, permit_eq_ok_iff, Sink.port.injEq] at h
        exact ⟨dir, by rw [h.2]⟩

/-- What was written is read back, unless the system does not give it. -/
theorem read_put_self (h : fs.place? home path = some place) (hslash : Path.endsInSlash path = false)
    (content : ByteArray) : (fs.put place content).read home path = fs.permit place .read content := by
  obtain ⟨target, hlocate, htarget⟩ := place?_eq_some_iff.mp h
  have hput := locate_put (slot_of_locate hlocate htarget) content hlocate
  rw [Target.afterPut_of_eq htarget] at hput
  rw [read, hput]
  simp only [hslash, Bool.false_eq_true, if_false]
  rfl

theorem Slot.locate_put_of_ne (h : Slot fs place) (hother : fs.place? home path ≠ some place)
    (hlocate : fs.locate home path = .ok target) (content : ByteArray) :
    (fs.put place content).locate home path = .ok target := by
  have htarget : target.place? ≠ some place := fun ht => hother (place?_eq_some_iff.mpr ⟨target, hlocate, ht⟩)
  rw [locate_put h content hlocate, Target.afterPut_of_ne htarget]

theorem Slot.read_put (h : Slot fs place) (hother : fs.place? home path ≠ some place)
    (hread : fs.read home path = .ok old) (content : ByteArray) : (fs.put place content).read home path = .ok old := by
  cases hlocate : fs.locate home path with
  | error e => simp [read, hlocate] at hread
  | ok target =>
    rw [read, hlocate] at hread
    rw [read, h.locate_put_of_ne hother hlocate content]
    exact hread

end Writing

end FileSystem

namespace World

def place? (w : World) (path : String) : Option Place := w.files.place? w.home path

/-- The second path leads to a file, or to where one can be made, and this is not the file of the first path. -/
def OtherFile (w : World) (path other : String) : Prop :=
  ∃ place, w.place? other = some place ∧ w.place? path ≠ some place

/-- The path leads to a file, or to where one can be made, and the system gives out what stands there. -/
def Readable (w : World) (path : String) : Prop :=
  ∃ place, w.place? path = some place ∧ w.files.refusal place .read = none

variable {w w' : World} {path : String} {content : ByteArray}

/-- The two ways in which a write goes well: a file is put in its place, or a port takes the content. -/
theorem write_eq_ok_iff : w.write path content = (.ok (), w') ↔
    (∃ place, w.files.sink w.home path content = .ok (.file place) ∧
      w' = { w with files := w.files.put place content }) ∨
    ∃ port, w.files.sink w.home path content = .ok (.port port) ∧
      w.transmit port content.toList = (.ok (), w') := by
  unfold write
  cases w.files.sink w.home path content with
  | error e => simp
  | ok sink =>
    cases sink with
    | file place => simp [eq_comm]
    | port port =>
      cases htransmit : w.transmit port content.toList with
      | mk result next => cases result <;> simp [Except.mapError, htransmit]

/-- Where the path leads to the place of a file, a write puts the content there. -/
theorem put_of_write {place : Place} (hplace : w.place? path = some place) (h : w.write path content = (.ok (), w')) :
    Path.endsInSlash path = false ∧ w' = { w with files := w.files.put place content } := by
  obtain ⟨dir, hsink, rfl⟩ | ⟨port, hsink, -⟩ := write_eq_ok_iff.mp h
  · obtain ⟨hdir, hslash, -⟩ := FileSystem.sink_eq_file_iff.mp hsink
    obtain rfl : place = dir := Option.some.inj (hplace.symm.trans hdir)
    exact ⟨hslash, rfl⟩
  · -- a device is not the place of a file
    obtain ⟨dir, hlocate⟩ := FileSystem.exists_device_of_sink hsink
    rw [place?, FileSystem.place?, hlocate] at hplace
    cases hplace

theorem read_of_write (hreadable : w.Readable path) (h : w.write path content = (.ok (), w')) :
    w'.read path = .ok content := by
  obtain ⟨place, hplace, hrefusal⟩ := hreadable
  obtain ⟨hslash, rfl⟩ := put_of_write hplace h
  exact (FileSystem.read_put_self hplace hslash content).trans (FileSystem.permit_eq_ok_iff.mpr ⟨hrefusal, rfl⟩)

/-- What could be read from another file can still be read. -/
theorem read_other_of_write {other : String} {old : ByteArray} (hother : w.OtherFile other path)
    (h : w.write path content = (.ok (), w')) (hold : w.read other = .ok old) : w'.read other = .ok old := by
  obtain ⟨place, hplace, hne⟩ := hother
  obtain ⟨-, rfl⟩ := put_of_write hplace h
  exact (FileSystem.slot_of_place? hplace).read_put hne hold content

end World

end ByteMachine
