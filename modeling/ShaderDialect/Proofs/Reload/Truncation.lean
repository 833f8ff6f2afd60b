import Mathlib.Data.Nat.Digits.Defs
import ShaderDialect.Proofs.Reload.Connection

/-! A stream that ends inside a message. Its end is noticed once the length of the message is
complete: the message is then reported as cut, and a server sends one more response to say so.
Before that, the stream is taken for one that ends between two messages, and nothing is said. -/
namespace ShaderDialect
open List

namespace Frame
variable {payload frame cut : List UInt8}

theorem encode_eq_ok : encode payload = .ok frame ↔
    payload.length ≤ maxLength ∧ frame = bytes payload := by
  rw [encode]
  by_cases h : payload.length ≤ maxLength
  · rw [write_of_le h]
    simp [h, eq_comm]
  · rw [write_of_lt (Nat.not_le.1 h)]
    simp [h]

theorem length_bytes (payload : List UInt8) : (bytes payload).length = 4 + payload.length := by
  rw [bytes, length_append, Bytes.length_ofNat]

theorem read_eq_none_iff (stream : List UInt8) : read stream = .ok none ↔ stream.length < 4 := by
  rw [read, Bytes.read?, Bytes.slice?]
  by_cases h : 0 + 4 ≤ stream.length
  · rw [if_pos h, Option.map_some]
    dsimp only
    split
    · simp; omega
    · split
      · simp; omega
      · simp; omega
  · rw [if_neg h]
    simp; omega

/-- The length is complete and says more than there is. -/
theorem read_of_cut (hp : payload.length ≤ maxLength) (h : cut <+: bytes payload)
    (hne : cut ≠ bytes payload) (hl : 4 ≤ cut.length) :
    read cut = .error (.frameCut payload.length) := by
  have hshort : cut.length < 4 + payload.length := by
    rw [← length_bytes]
    exact Nat.lt_of_le_of_ne h.length_le fun he => hne (h.eq_of_length he)
  have hheader : Bytes.ofNat 4 payload.length <+: cut := by
    refine prefix_of_prefix_length_le (prefix_append _ payload) h ?_
    rw [Bytes.length_ofNat]
    exact hl
  obtain ⟨part, rfl⟩ := hheader
  have hlength : Bytes.read? 4 (Bytes.ofNat 4 payload.length ++ part) 0 = some payload.length :=
    Bytes.read?_ofNat _ (lt_of_le_maxLength hp)
  have hslice : Bytes.slice? (Bytes.ofNat 4 payload.length ++ part) 4 payload.length = none := by
    rw [Bytes.slice?, if_neg (Nat.not_le.2 hshort)]
  simp only [read, hlength, if_neg (Nat.not_lt.2 hp), hslice]

end Frame

theorem JsonTree.length_escapedBytes_le (c : Char) : (escapedBytes c).length ≤ 6 := by
  rcases escapedBytes_cases c with ⟨e, b, h, -⟩ | ⟨w, x, y, z, h, -⟩ | ⟨h, -⟩
  · simp [h]
  · simp [h]
  · rw [h, String.length_utf8EncodeChar]
    have := c.utf8Size_le_four
    omega

theorem JsonTree.length_raw_le (s : String) : (raw s).length ≤ 6 * s.length := by
  rw [raw, ← String.length_toList]
  induction s.toList with
  | nil => simp
  | cons c cs ih =>
    have := length_escapedBytes_le c
    rw [flatMap_cons, length_append, length_cons]
    omega

namespace ReloadServer
variable {s : ReloadServer} {explain : List UInt8 → String} {tree : FileTree}
  {payload stream : List UInt8} {payloads : List (List UInt8)}

theorem connection_of_error {fault : ReloadFault} (h : Frame.read stream = .error fault) :
    s.connection tree stream explain =
      (tree, ((Frame.write (refuse fault).toBytes).run.run []).2) := by
  rw [connection]
  split
  · next hr => simp [h] at hr
  · next fault' hr =>
    have he : fault = fault' := by simpa [h] using hr
    rw [he]
  · next p r hr => simp [h] at hr

/-- After whole messages the connection goes on with what follows them, as long as every response
can be sent. -/
theorem connection_append (hp : ∀ p ∈ payloads, p.length ≤ Frame.maxLength)
    (hr : ∀ r ∈ s.responses explain tree payloads, r.size ≤ Frame.maxLength) :
    s.connection tree (Frame.stream payloads ++ stream) explain =
      let rest := s.connection (s.treeAfter explain tree payloads) stream explain
      (rest.1, Frame.stream ((s.responses explain tree payloads).map ReloadResponse.toBytes) ++
        rest.2) := by
  induction payloads generalizing tree with
  | nil => rfl
  | cons payload payloads ih =>
    have hread : Frame.read (Frame.stream (payload :: payloads) ++ stream) =
        .ok (some (payload, Frame.stream payloads ++ stream)) := by
      rw [Frame.stream, flatMap_cons, append_assoc]
      exact Frame.read_bytes (hp payload mem_cons_self)
    rw [responses, forall_mem_cons] at hr
    have hlength := hr.1
    rw [← ReloadResponse.length_toBytes] at hlength
    have hrest := ih (fun p h => hp p (mem_cons_of_mem payload h)) hr.2
    rw [connection_of_some hread, Frame.write_of_le hlength, hrest]
    simp [responses, treeAfter, Frame.stream]

theorem size_refuse_frameCut {n : Nat} (h : n ≤ Frame.maxLength) :
    (refuse (.frameCut n)).size ≤ Frame.maxLength := by
  have hlimit : Frame.maxLength = 67108864 := by decide
  have hdigits : (toString n).length ≤ 8 := Nat.repr_length n 8 (by decide) (by omega)
  have hmessage : refuse (.frameCut n) = .failed ("malformed request: " ++
      ("connection closed inside a frame of " ++ toString n ++ " bytes")) := rfl
  rw [hmessage]
  generalize hm : "malformed request: " ++ _ = message
  have hlength : message.length ≤ 70 := by
    have hfirst : "malformed request: ".length = 19 := by decide
    have hbefore : "connection closed inside a frame of ".length = 36 := by decide
    have hafter : " bytes".length = 6 := by decide
    rw [← hm]
    simp only [String.length_append, hfirst, hbefore, hafter]
    omega
  have hraw := JsonTree.length_raw_le message
  have hsize : (ReloadResponse.failed message).size = 43 + (JsonTree.raw message).length := by
    simp [ReloadResponse.size, ReloadResponse.failed, ReloadResponse.errorSize]
    omega
  omega

theorem answers_of_size {answers : List ReloadResponse}
    (h : ∀ r ∈ answers, r.size ≤ Frame.maxLength) :
    Answers answers (Frame.stream (answers.map ReloadResponse.toBytes)) := by
  have hsent := answers_sendable_iff.2 h
  rwa [sendable_eq_self_iff.2 h] at hsent

/-- What is said of a message that is cut: something if the length is complete, else nothing. -/
def complaint (payload cut : List UInt8) : List ReloadResponse :=
  if 4 ≤ cut.length then [refuse (.frameCut payload.length)] else []

theorem size_of_mem_complaint {cut : List UInt8} (hp : payload.length ≤ Frame.maxLength) :
    ∀ r ∈ complaint payload cut, r.size ≤ Frame.maxLength := by
  intro r hr
  rw [complaint] at hr
  split at hr
  · rw [mem_singleton.1 hr]
    exact size_refuse_frameCut hp
  · cases hr

theorem connection_cut {cut : List UInt8} (hp : payload.length ≤ Frame.maxLength)
    (h : cut <+: Frame.bytes payload) (hne : cut ≠ Frame.bytes payload) :
    s.connection tree cut explain =
      (tree, Frame.stream ((complaint payload cut).map ReloadResponse.toBytes)) := by
  by_cases hl : 4 ≤ cut.length
  · have hsize := size_refuse_frameCut hp
    rw [← ReloadResponse.length_toBytes] at hsize
    rw [connection_of_error (Frame.read_of_cut hp h hne hl), Frame.write_of_le hsize, complaint,
      if_pos hl]
    simp [Frame.stream]
  · rw [connection_of_none ((Frame.read_eq_none_iff cut).2 (Nat.not_le.1 hl)), complaint, if_neg hl]
    rfl

/-- A stream has no further message exactly if it ends before a length is complete. So a message
that is cut is reported exactly if its length is complete; a server that has answered all messages
before it then sends one more response, a failure, and otherwise it sends nothing more. -/
theorem cut_answered_iff (cut : List UInt8) :
    (Frame.read cut = .ok none ↔ cut.length < 4) ∧
    ∀ payload frame, Frame.encode payload = .ok frame → cut <+: frame → cut ≠ frame →
      ((∃ fault, Frame.read cut = .error fault) ↔ 4 ≤ cut.length) ∧
      ∀ (s : ReloadServer) (explain : List UInt8 → String) (tree : FileTree)
        (payloads : List (List UInt8)), (∀ p ∈ payloads, p.length ≤ Frame.maxLength) →
        (∀ r ∈ s.responses explain tree payloads, r.size ≤ Frame.maxLength) →
        let (left, sent) := s.connection tree (Frame.stream payloads ++ cut) explain
        left = s.treeAfter explain tree payloads ∧
        Answers (s.responses explain tree payloads ++
          if 4 ≤ cut.length then [refuse (.frameCut payload.length)] else []) sent := by
  refine ⟨Frame.read_eq_none_iff cut, fun payload frame hframe h hne => ?_⟩
  obtain ⟨hp, rfl⟩ := Frame.encode_eq_ok.1 hframe
  refine ⟨⟨?_, fun hl => ⟨_, Frame.read_of_cut hp h hne hl⟩⟩, ?_⟩
  · rintro ⟨fault, hfault⟩
    by_contra hl
    rw [(Frame.read_eq_none_iff cut).2 (Nat.not_le.1 hl)] at hfault
    cases hfault
  · intro s explain tree payloads hpayloads hresponses
    rw [connection_append hpayloads hresponses, connection_cut hp h hne]
    refine ⟨rfl, ?_⟩
    have hall : ∀ r ∈ s.responses explain tree payloads ++ complaint payload cut,
        r.size ≤ Frame.maxLength :=
      forall_mem_append.2 ⟨hresponses, size_of_mem_complaint hp⟩
    have hanswers := answers_of_size hall
    rwa [map_append, Frame.stream, flatMap_append] at hanswers

/-- A connection that is lost within the length of a message ends in silence; one that is lost after
it ends with a failure. -/
theorem cut_answered_iff_lost :
    (Frame.read [5, 0] = .ok none ∧ Answers [] (idle.connection ⟨[], []⟩ [5, 0]).2) ∧
    (∃ fault, Frame.read [5, 0, 0, 0, 1] = .error fault) ∧
    Answers [refuse (.frameCut 5)] (idle.connection ⟨[], []⟩ [5, 0, 0, 0, 1]).2 := by
  have hframe : Frame.encode [1, 2, 3, 4, 5] = .ok [5, 0, 0, 0, 1, 2, 3, 4, 5] := by decide
  obtain ⟨hnone, hcut⟩ := cut_answered_iff [5, 0]
  have hshort :=
    (hcut _ _ hframe (by decide) (by decide)).2 idle (fun _ => formExpected) ⟨[], []⟩ []
    (by simp) (by simp [responses])
  obtain ⟨-, hcut⟩ := cut_answered_iff [5, 0, 0, 0, 1]
  obtain ⟨hreported, hlong⟩ := hcut _ _ hframe (by decide) (by decide)
  have hlong := hlong idle (fun _ => formExpected) ⟨[], []⟩ [] (by simp) (by simp [responses])
  exact ⟨⟨hnone.2 (by decide), hshort.2⟩, hreported.2 (by decide), hlong.2⟩

end ReloadServer
end ShaderDialect
