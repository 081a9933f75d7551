import ByteMachine.Frame
import ByteMachine.Proofs.Outcomes

/-! # Streams of frames: frames that stand one behind the other are told apart by what is in them -/
namespace ByteMachine.Frame

theorem ofPayload_eq (payload : List UInt8) : ofPayload payload =
    if payload.length = 0 then .error .emptyProgram
    else if maxLength < payload.length then .error (.tooLarge payload.length)
    else .ok (sync ++ lengthBytes payload.length ++ payload) := by
  simp only [ofPayload, List.isEmpty_iff, List.length_eq_zero_iff]

theorem ofPayload_eq_ok_iff {payload frame : List UInt8} : ofPayload payload = .ok frame ↔
    (1 ≤ payload.length ∧ payload.length ≤ maxLength) ∧ frame = sync ++ lengthBytes payload.length ++ payload := by
  rw [ofPayload_eq]
  split
  · simp only [reduceCtorEq, false_iff]
    omega
  · split
    · simp only [reduceCtorEq, false_iff]
      omega
    · have hfits : 1 ≤ payload.length ∧ payload.length ≤ maxLength := by omega
      simp only [hfits, true_and, Except.ok.injEq, eq_comm]

theorem ofPayload_eq_error_iff {payload : List UInt8} {e : Error} : ofPayload payload = .error e ↔
    (payload.length = 0 ∧ e = .emptyProgram) ∨ (maxLength < payload.length ∧ e = .tooLarge payload.length) := by
  rw [ofPayload_eq]
  split
  · rename_i hzero
    simp [hzero, eq_comm]
  · rename_i hpos
    split
    · rename_i hlong
      simp [hpos, hlong, eq_comm]
    · rename_i hshort
      simp [hpos, hshort]

theorem lengthOf_ofNat {n : Nat} (h : n ≤ maxLength) : lengthOf (UInt8.ofNat (n / 256)) (UInt8.ofNat n) = n := by
  have hmax : maxLength = 65535 := rfl
  rw [lengthOf, UInt8.toNat_ofNat', UInt8.toNat_ofNat']
  omega

theorem lengthBytes_lengthOf (high low : UInt8) : lengthBytes (lengthOf high low) = [high, low] := by
  have hhigh := high.toNat_lt
  have hlow := low.toNat_lt
  have hdiv : lengthOf high low / 256 = high.toNat := by
    rw [lengthOf]
    omega
  have hmod : UInt8.ofNat (lengthOf high low) = low := by
    apply UInt8.toNat_inj.mp
    rw [UInt8.toNat_ofNat', lengthOf]
    omega
  rw [lengthBytes, hdiv, hmod, UInt8.ofNat_toNat]

/-- What the other end takes off a stream: markers, a length, and as many bytes. -/
theorem receive?_eq_some_iff {stream payload rest : List UInt8} : receive? stream = some (payload, rest) ↔
    ∃ high low, lengthOf high low = payload.length ∧ stream = sync ++ [high, low] ++ payload ++ rest := by
  constructor
  · intro h
    unfold receive? at h
    split at h
    · rename_i s₀ s₁ high low stream
      split at h
      · rename_i hframe
        obtain ⟨hsync, hlength⟩ := hframe
        cases h
        refine ⟨high, low, by simp [hlength], ?_⟩
        rw [← hsync]
        simp
      · cases h
    · cases h
  · rintro ⟨high, low, hlength, rfl⟩
    simp [receive?, sync, hlength]

/-- A payload is received with what is behind it if and only if the stream starts with its frame. -/
theorem receive?_eq_some_iff_ofPayload {stream payload rest : List UInt8} (hne : payload ≠ []) :
    receive? stream = some (payload, rest) ↔ ∃ frame, ofPayload payload = .ok frame ∧ stream = frame ++ rest := by
  have hpos : 1 ≤ payload.length := List.length_pos_iff.mpr hne
  rw [receive?_eq_some_iff]
  constructor
  · rintro ⟨high, low, hlength, rfl⟩
    have hhigh := high.toNat_lt
    have hlow := low.toNat_lt
    have hmax : payload.length ≤ maxLength := by
      rw [← hlength, lengthOf, maxLength]
      omega
    refine ⟨_, ofPayload_eq_ok_iff.mpr ⟨⟨hpos, hmax⟩, rfl⟩, ?_⟩
    rw [← hlength, lengthBytes_lengthOf]
  · rintro ⟨frame, hframe, rfl⟩
    obtain ⟨⟨-, hmax⟩, rfl⟩ := ofPayload_eq_ok_iff.mp hframe
    exact ⟨_, _, lengthOf_ofNat hmax, rfl⟩

theorem receiveAll_of_receive? {stream payload rest : List UInt8} (h : receive? stream = some (payload, rest)) :
    receiveAll stream = (payload :: (receiveAll rest).1, (receiveAll rest).2) := by
  rw [receiveAll]
  split
  · simp_all
  · rename_i hother
    cases h.symm.trans hother
    rfl

theorem receiveAll_nil : receiveAll [] = ([], []) := by
  rw [receiveAll]
  rfl

theorem ne_nil_of_ofPayload {payload frame : List UInt8} (h : ofPayload payload = .ok frame) : payload ≠ [] :=
  List.length_pos_iff.mp (ofPayload_eq_ok_iff.mp h).1.1

/-- Frames in front of a stream are taken off it one by one, whatever the stream behind them is. -/
theorem receiveAll_append {payloads frames : List (List UInt8)} (h : payloads.mapM ofPayload = .ok frames)
    (stream : List UInt8) :
    receiveAll (frames.flatten ++ stream) = (payloads ++ (receiveAll stream).1, (receiveAll stream).2) := by
  induction mapM_eq_ok_iff.mp h with
  | nil => rfl
  | @cons payload frame payloads frames hframe hrest ih =>
    have hfirst : receive? (frame ++ (frames.flatten ++ stream)) = some (payload, frames.flatten ++ stream) :=
      (receive?_eq_some_iff_ofPayload (ne_nil_of_ofPayload hframe)).mpr ⟨frame, hframe, rfl⟩
    rw [List.flatten_cons, List.append_assoc, receiveAll_of_receive? hfirst, ih (mapM_eq_ok_iff.mpr hrest)]
    rfl

/-- What is received, empty payloads aside, are the payloads of the frames that the stream is made of. -/
theorem exists_frames_of_receiveAll {stream left : List UInt8} {payloads : List (List UInt8)}
    (h : receiveAll stream = (payloads, left)) (hne : ∀ payload ∈ payloads, payload ≠ []) :
    ∃ frames, payloads.mapM ofPayload = .ok frames ∧ stream = frames.flatten ++ left := by
  simp only [mapM_eq_ok_iff]
  fun_induction receiveAll stream generalizing payloads left with
  | case1 stream =>
    cases h
    exact ⟨[], .nil, rfl⟩
  | case2 stream payload rest hfirst payloads left' hrest ih =>
    cases h
    obtain ⟨hpayload, hne⟩ := List.forall_mem_cons.mp hne
    obtain ⟨frame, hframe, rfl⟩ := (receive?_eq_some_iff_ofPayload hpayload).mp hfirst
    obtain ⟨frames, hframes, rfl⟩ := ih hrest hne
    exact ⟨frame :: frames, .cons hframe hframes, (List.append_assoc ..).symm⟩

theorem exists_frames {payloads : List (List UInt8)}
    (h : ∀ payload ∈ payloads, 1 ≤ payload.length ∧ payload.length ≤ maxLength) :
    ∃ frames, payloads.mapM ofPayload = .ok frames := by
  cases hm : payloads.mapM ofPayload with
  | ok frames => exact ⟨frames, rfl⟩
  | error e =>
    obtain ⟨front, payload, back, rfl, -, herror⟩ := mapM_eq_error_iff.mp hm
    have hfits := h payload (by simp)
    have hunfit := ofPayload_eq_error_iff.mp herror
    omega

/-- A frame can be made of a payload of one to 65535 bytes and of no other. From frames of such payloads that stand one
behind the other, the payloads are received in order and nothing is left over, and no other stream is received so. -/
theorem frames_are_self_delimiting :
    (∀ payload, (∃ frame, ofPayload payload = .ok frame) ↔ 1 ≤ payload.length ∧ payload.length ≤ 65535) ∧
    (∀ payload, ofPayload payload = .error .emptyProgram ↔ payload.length = 0) ∧
    (∀ payload size, ofPayload payload = .error (.tooLarge size) ↔ 65535 < payload.length ∧ size = payload.length) ∧
    ∀ payloads : List (List UInt8), (∀ payload ∈ payloads, 1 ≤ payload.length ∧ payload.length ≤ 65535) →
      ∃ frames, payloads.mapM ofPayload = .ok frames ∧ receiveAll frames.flatten = (payloads, []) ∧
        ∀ stream, receiveAll stream = (payloads, []) → stream = frames.flatten := by
  refine ⟨?_, ?_, ?_, ?_⟩
  · intro payload
    simp only [ofPayload_eq_ok_iff, exists_and_left, exists_eq, and_true, maxLength]
  · intro payload
    simp [ofPayload_eq_error_iff]
  · intro payload size
    simp [ofPayload_eq_error_iff, maxLength]
  · intro payloads hfit
    obtain ⟨frames, hframes⟩ := exists_frames hfit
    have hreceived := receiveAll_append hframes []
    rw [List.append_nil, receiveAll_nil, List.append_nil] at hreceived
    refine ⟨frames, hframes, hreceived, ?_⟩
    intro stream hstream
    have hne : ∀ payload ∈ payloads, payload ≠ [] :=
      fun payload hmem => List.length_pos_iff.mp (hfit payload hmem).1
    obtain ⟨frames', hframes', rfl⟩ := exists_frames_of_receiveAll hstream hne
    cases hframes.symm.trans hframes'
    rw [List.append_nil]

/-- Payloads that look like the start of a frame and like a length, and one whose length takes both bytes. -/
theorem markers_inside_payloads :
    let payloads := [[0x55, 0xAA], [0x00, 0x01, 0x55, 0xAA], List.replicate 256 0xAA]
    let frames := [[0x55, 0xAA, 0x00, 0x02, 0x55, 0xAA], [0x55, 0xAA, 0x00, 0x04, 0x00, 0x01, 0x55, 0xAA],
      0x55 :: 0xAA :: 0x01 :: 0x00 :: List.replicate 256 0xAA]
    (∀ payload ∈ payloads, 1 ≤ payload.length ∧ payload.length ≤ 65535) ∧
      receiveAll frames.flatten = (payloads, []) := by
  intro payloads frames
  obtain ⟨-, -, -, hreceived⟩ := frames_are_self_delimiting
  have hfit : ∀ payload ∈ payloads, 1 ≤ payload.length ∧ payload.length ≤ 65535 := by decide +kernel
  have hframes : payloads.mapM ofPayload = .ok frames := by decide +kernel
  obtain ⟨frames', hframes', hstream, -⟩ := hreceived payloads hfit
  cases hframes.symm.trans hframes'
  exact ⟨hfit, hstream⟩

end ByteMachine.Frame
