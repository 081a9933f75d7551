import ByteMachine.Link
import ByteMachine.Proofs.FrameStreams

/-! # Deliveries: what a link that fails now and then has taken of the frames sent over it -/
namespace ByteMachine.Link

/-- How far a write got from `taken` and `calls` on: a part of the bytes was taken, which is all of them unless a reply
ended the write. Each call uses up a reply, but for one call that may go beyond the script. -/
structure Progress (taken : List UInt8) (calls : Nat) (bytes : List UInt8) (script : List Reply) (w : Written)
    (part : List UInt8) : Prop where
  taken_eq : w.taken = taken ++ part
  begins : part <+: bytes
  complete : w.failure = none ↔ part = bytes
  bounded : w.calls + w.script.length ≤ calls + script.length + 1
  cause : ∀ text, w.failure = some text →
    .failure text ∈ script ∨ .accept 0 ∈ script ∧ text = "failed to write whole buffer"

theorem exists_progress (taken : List UInt8) (calls : Nat) (bytes : List UInt8) (script : List Reply) :
    ∃ part, Progress taken calls bytes script (writeAll taken calls bytes script) part := by
  fun_induction writeAll taken calls bytes script with
  | case1 taken calls script =>
    exact ⟨[], (List.append_nil taken).symm, List.nil_prefix, by simp, by simp, nofun⟩
  | case2 taken calls remaining hne =>
    exact ⟨remaining, rfl, List.prefix_refl remaining, by simp, by simp, nofun⟩
  | case3 taken calls remaining script hne ih =>
    -- The same bytes are offered again, so the part is that of the write that follows.
    obtain ⟨part, ih⟩ := ih
    refine ⟨part, ih.taken_eq, ih.begins, ih.complete, ?_, ?_⟩
    · have hbounded := ih.bounded
      rw [List.length_cons]
      omega
    · intro text htext
      simpa using ih.cause text htext
  | case4 taken calls remaining text script hne =>
    exact ⟨[], (List.append_nil taken).symm, List.nil_prefix, by simpa [eq_comm] using hne, by simp; omega, by simp⟩
  | case5 taken calls remaining script hne =>
    exact ⟨[], (List.append_nil taken).symm, List.nil_prefix, by simpa [eq_comm] using hne, by simp; omega, by simp⟩
  | case6 taken calls remaining n script hne ih =>
    obtain ⟨part, ih⟩ := ih
    have hsplit := List.take_append_drop (n + 1) remaining
    refine ⟨remaining.take (n + 1) ++ part, ?_, ?_, ?_, ?_, ?_⟩
    · rw [ih.taken_eq, List.append_assoc]
    · have hbegins := (List.prefix_append_right_inj (remaining.take (n + 1))).mpr ih.begins
      rwa [hsplit] at hbegins
    · have hall : part = remaining.drop (n + 1) ↔ remaining.take (n + 1) ++ part = remaining := by
        rw [← List.append_right_inj (remaining.take (n + 1)), hsplit]
      exact ih.complete.trans hall
    · have hbounded := ih.bounded
      rw [List.length_cons]
      omega
    · intro text htext
      simpa using ih.cause text htext

/-- What one send did to a link, by its result. A payload without a frame leaves the link as it was. A frame is taken
and flushed once; else less than all of it is taken and nothing is flushed, or the one flush fails. -/
inductive Outcome (payload : List UInt8) (before after : Link) : List UInt8 → Except Error Unit → Prop
  | sent {frame} (framed : Frame.ofPayload payload = .ok frame) (flushed : after.flushCalls = before.flushCalls + 1) :
      Outcome payload before after frame (.ok ())
  | refused {e} (unframed : Frame.ofPayload payload = .error e) (untouched : after = before) :
      Outcome payload before after [] (.error (.frame e))
  | cutShort {frame part text} (framed : Frame.ofPayload payload = .ok frame) (begins : part <+: frame)
      (proper : part ≠ frame) (unflushed : after.flushCalls = before.flushCalls)
      (cause : .failure text ∈ before.writes ∨ .accept 0 ∈ before.writes ∧ text = "failed to write whole buffer") :
      Outcome payload before after part (.error (.io text))
  | heldBack {frame text} (framed : Frame.ofPayload payload = .ok frame)
      (flushed : after.flushCalls = before.flushCalls + 1) (cause : before.flushes.head? = some (some text)) :
      Outcome payload before after frame (.error (.io text))

/-- A send that added a part of a frame to what the link took, in at most one call more than replies were used up. -/
structure Delivery (before : Link) (payload : List UInt8) (s : Sent) (part : List UInt8) : Prop where
  outcome : Outcome payload before s.link part s.result
  accepted : s.link.accepted = before.accepted ++ part
  bounded : s.link.writeCalls + s.link.writes.length ≤ before.writeCalls + before.writes.length + 1

/-- The link after a write, before any flush. -/
def written (l : Link) (bytes : List UInt8) : Link :=
  let w := writeAll [] 0 bytes l.writes
  { l with writes := w.script, accepted := l.accepted ++ w.taken, writeCalls := l.writeCalls + w.calls }

theorem deliver_of_failure {l : Link} {bytes : List UInt8} {text : String}
    (h : (writeAll [] 0 bytes l.writes).failure = some text) : l.deliver bytes = (l.written bytes, .error text) := by
  simp only [deliver, h]
  rfl

theorem deliver_of_complete {l : Link} {bytes : List UInt8} (h : (writeAll [] 0 bytes l.writes).failure = none) :
    l.deliver bytes = (l.written bytes).flush := by
  simp only [deliver, h]
  rfl

theorem send_of_framed {l : Link} {payload frame : List UInt8} (h : Frame.ofPayload payload = .ok frame) :
    l.send payload = ⟨(l.deliver frame).1, [frame.length], (l.deliver frame).2.mapError .io⟩ := by
  simp only [send, h]

theorem flush_cases (l : Link) :
    l.flush.2 = .ok () ∨ ∃ text, l.flushes.head? = some (some text) ∧ l.flush.2 = .error text := by
  unfold flush
  split
  · rename_i text htext
    exact .inr ⟨text, htext, rfl⟩
  · exact .inl rfl

theorem Progress.accepted_written {l : Link} {bytes part : List UInt8}
    (h : Progress [] 0 bytes l.writes (writeAll [] 0 bytes l.writes) part) :
    (l.written bytes).accepted = l.accepted ++ part := by
  simp [written, h.taken_eq]

theorem Progress.bounded_written {l : Link} {bytes part : List UInt8}
    (h : Progress [] 0 bytes l.writes (writeAll [] 0 bytes l.writes) part) :
    (l.written bytes).writeCalls + (l.written bytes).writes.length ≤ l.writeCalls + l.writes.length + 1 := by
  have hbounded := h.bounded
  simp only [written]
  omega

theorem exists_delivery (l : Link) (payload : List UInt8) : ∃ part, Delivery l payload (l.send payload) part := by
  cases hp : Frame.ofPayload payload with
  | error e =>
    have hsend : l.send payload = ⟨l, [], .error (.frame e)⟩ := by simp only [send, hp]
    rw [hsend]
    exact ⟨[], .refused hp rfl, (List.append_nil _).symm, Nat.le_succ _⟩
  | ok frame =>
    obtain ⟨part, h⟩ := exists_progress [] 0 frame l.writes
    rw [send_of_framed hp]
    refine ⟨part, ?_⟩
    cases hw : (writeAll [] 0 frame l.writes).failure with
    | some text =>
      have hproper : part ≠ frame := fun he => by simp [h.complete.mpr he] at hw
      rw [deliver_of_failure hw]
      exact ⟨.cutShort hp h.begins hproper rfl (h.cause text hw), h.accepted_written, h.bounded_written⟩
    | none =>
      obtain rfl := h.complete.mp hw
      rw [deliver_of_complete hw]
      refine ⟨?_, h.accepted_written, h.bounded_written⟩
      obtain hok | ⟨text, hcause, herror⟩ := (l.written part).flush_cases
      · rw [hok]
        exact .sent hp rfl
      · rw [herror]
        exact .heldBack hp rfl hcause

/-- Sends one after the other, each with its part. -/
inductive Deliveries : Link → List (List UInt8) → List Sent → List (List UInt8) → Prop
  | nil (l) : Deliveries l [] [] []
  | cons {l payload payloads s ss part parts} (first : Delivery l payload s part)
      (rest : Deliveries s.link payloads ss parts) :
      Deliveries l (payload :: payloads) (s :: ss) (part :: parts)

theorem exists_deliveries (l : Link) (payloads : List (List UInt8)) :
    ∃ parts, Deliveries l payloads (l.sendAll payloads) parts := by
  induction payloads generalizing l with
  | nil => exact ⟨[], .nil l⟩
  | cons payload payloads ih =>
    obtain ⟨part, hfirst⟩ := exists_delivery l payload
    obtain ⟨parts, hrest⟩ := ih (l.send payload).link
    exact ⟨part :: parts, .cons hfirst hrest⟩

/-- The link behind the last of some sends that start from `l`. -/
def linkAfter (l : Link) (ss : List Sent) : Link := (ss.map Sent.link).getLastD l

theorem Deliveries.accepted_linkAfter {l : Link} {payloads parts : List (List UInt8)} {ss : List Sent}
    (h : Deliveries l payloads ss parts) : (linkAfter l ss).accepted = l.accepted ++ parts.flatten := by
  induction h with
  | nil l => exact (List.append_nil _).symm
  | cons first rest ih =>
    rw [linkAfter, List.map_cons, List.getLastD_cons, ← linkAfter, ih, first.accepted, List.flatten_cons,
      List.append_assoc]

theorem Deliveries.bounded_linkAfter {l : Link} {payloads parts : List (List UInt8)} {ss : List Sent}
    (h : Deliveries l payloads ss parts) :
    (linkAfter l ss).writeCalls + (linkAfter l ss).writes.length ≤ l.writeCalls + l.writes.length + payloads.length := by
  induction h with
  | nil l => exact Nat.le_refl _
  | cons first rest ih =>
    have hfirst := first.bounded
    rw [linkAfter, List.map_cons, List.getLastD_cons, ← linkAfter, List.length_cons]
    omega

-- A frame in two pieces; a write that takes nothing; no frame; a failed write; a failed flush behind the script.
example :
    let start := ofScript [.accept 3, .interrupted, .accept 9, .accept 0, .failure "gone"] [none, some "lost"]
    let sends := start.sendAll [[1], [2], [], [3], [4]]
    sends.map (·.result) = [.ok (), .error (.io "failed to write whole buffer"), .error (.frame .emptyProgram),
        .error (.io "gone"), .error (.io "lost")] ∧
      (linkAfter start sends).accepted = [0x55, 0xAA, 0x00, 0x01, 1, 0x55, 0xAA, 0x00, 0x01, 4] := ⟨rfl, rfl⟩

/-- Whatever the replies of a link are, every send over it comes to an end, and the link takes of each payload a part of
its frame: all of it if the send succeeds, nothing if there is no frame, and otherwise less than all without a flush, or
all with a flush that fails. What the link took are these parts in order, in a number of calls that the script and the
sends bound. -/
theorem link_takes_one_part_of_each_frame (writes : List Reply) (flushes : List (Option String))
    (payloads : List (List UInt8)) :
    let start := ofScript writes flushes
    ∃ parts, Deliveries start payloads (start.sendAll payloads) parts ∧
      (linkAfter start (start.sendAll payloads)).accepted = parts.flatten ∧
      (linkAfter start (start.sendAll payloads)).writeCalls ≤ writes.length + payloads.length := by
  intro start
  obtain ⟨parts, h⟩ := exists_deliveries start payloads
  refine ⟨parts, h, ?_, ?_⟩
  · exact h.accepted_linkAfter
  · have hbounded := h.bounded_linkAfter
    simp only [start, ofScript] at hbounded ⊢
    omega

end ByteMachine.Link
