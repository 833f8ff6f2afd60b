import ShaderDialect.Frame
import ShaderDialect.Proofs.Bytes

/-! Messages on a stream. What is written message by message is read back as the same messages, and
a message beyond the limit is neither written nor read. -/
namespace ShaderDialect.Frame
open List

def bytes (payload : List UInt8) : List UInt8 := Bytes.ofNat 4 payload.length ++ payload

def stream (payloads : List (List UInt8)) : List UInt8 := payloads.flatMap bytes

section Writing
variable {payload : List UInt8} {payloads : List (List UInt8)}

theorem write_of_le (h : payload.length ≤ maxLength) (sent : List UInt8) :
    (write payload).run.run sent = (.ok (), sent ++ bytes payload) := by
  have hlimit : ¬ maxLength < payload.length := Nat.not_lt.2 h
  have happend : sent ++ bytes payload = sent ++ Bytes.ofNat 4 payload.length ++ payload := by
    rw [bytes, append_assoc]
  rw [write, if_neg hlimit, happend]
  rfl

theorem write_of_lt (h : maxLength < payload.length) (sent : List UInt8) :
    (write payload).run.run sent = (.error (.frameTooLong payload.length), sent) := by
  rw [write, if_pos h]
  rfl

theorem forM_write (h : ∀ p ∈ payloads, p.length ≤ maxLength) (sent : List UInt8) :
    (payloads.forM write).run.run sent = (.ok (), sent ++ stream payloads) := by
  induction payloads generalizing sent with
  | nil =>
    rw [stream, flatMap_nil, append_nil]
    rfl
  | cons p payloads ih =>
    have hfirst := write_of_le (h p mem_cons_self) sent
    have hrest := ih (fun q hq => h q (mem_cons_of_mem _ hq)) (sent ++ bytes p)
    rw [append_assoc] at hrest
    change (write p >>= fun _ => payloads.forM write).run.run sent = _
    rw [ExceptT.run_bind, StateT.run_bind, hfirst]
    exact hrest

end Writing

section Reading
variable {payload rest header : List UInt8} {payloads : List (List UInt8)}

theorem lt_of_le_maxLength {n : Nat} (h : n ≤ maxLength) : n < 256 ^ 4 := by
  have hlimit : maxLength < 256 ^ 4 := by decide
  omega

theorem read_bytes (h : payload.length ≤ maxLength) :
    read (bytes payload ++ rest) = .ok (some (payload, rest)) := by
  have hlength : Bytes.read? 4 (bytes payload ++ rest) 0 = some payload.length := by
    rw [bytes, append_assoc]
    exact Bytes.read?_ofNat _ (lt_of_le_maxLength h)
  have hslice : Bytes.slice? (bytes payload ++ rest) 4 payload.length = some payload :=
    Bytes.slice?_eq_some.2 ⟨Bytes.ofNat 4 payload.length, rest, by rw [bytes, append_assoc],
      Bytes.length_ofNat _ _, rfl⟩
  have hdrop : (bytes payload ++ rest).drop (4 + payload.length) = rest := by
    have hsize : (bytes payload).length = 4 + payload.length := by
      rw [bytes, length_append, Bytes.length_ofNat]
    rw [← hsize, drop_left]
  simp only [read, hlength, if_neg (Nat.not_lt.2 h), hslice, hdrop]

theorem read_nil : read [] = .ok none := rfl

theorem read_of_header (hsize : header.length = 4) (h : maxLength < Bytes.toNat header) :
    read (header ++ rest) = .error (.frameTooLong (Bytes.toNat header)) := by
  have hlength : Bytes.read? 4 (header ++ rest) 0 = some (Bytes.toNat header) :=
    Bytes.read?_eq_some.2 ⟨header, Bytes.slice?_eq_some.2 ⟨[], rest, rfl, rfl, hsize⟩, rfl⟩
  simp only [read, hlength, if_pos h]

theorem readAll_of_none {stream : List UInt8} (h : read stream = .ok none) :
    readAll stream = ([], none) := by
  rw [readAll]
  split
  · next fault hr => simp [h] at hr
  · rfl
  · next p r hr => simp [h] at hr

theorem readAll_of_some {stream : List UInt8} (h : read stream = .ok (some (payload, rest))) :
    readAll stream = (payload :: (readAll rest).1, (readAll rest).2) := by
  rw [readAll]
  split
  · next fault hr => simp [h] at hr
  · next hr => simp [h] at hr
  · next p r hr =>
    have he : payload = p ∧ rest = r := by simpa [h] using hr
    obtain ⟨rfl, rfl⟩ := he
    rfl

theorem readAll_stream (h : ∀ p ∈ payloads, p.length ≤ maxLength) :
    readAll (stream payloads) = (payloads, none) := by
  induction payloads with
  | nil => exact readAll_of_none read_nil
  | cons p payloads ih =>
    have hfirst : read (stream (p :: payloads)) = .ok (some (p, stream payloads)) :=
      read_bytes (h p mem_cons_self)
    rw [readAll_of_some hfirst, ih fun q hq => h q (mem_cons_of_mem _ hq)]

end Reading

/-- Messages within the limit are all sent, and are read back one by one until the stream ends
between two messages. Sending fails exactly for a message beyond the limit, of which nothing is
sent, and reading fails at every length beyond the limit. -/
theorem write_read_faithful :
    (∀ payloads : List (List UInt8), (∀ p ∈ payloads, p.length ≤ maxLength) →
      ∃ sent, (payloads.forM write).run.run [] = (.ok (), sent) ∧
        readAll sent = (payloads, none)) ∧
    (∀ payload sent, ((∃ fault, ((write payload).run.run sent).1 = .error fault) ↔
        maxLength < payload.length) ∧
      (maxLength < payload.length → ((write payload).run.run sent).2 = sent)) ∧
    ∀ header rest, header.length = 4 → maxLength < Bytes.toNat header →
      ∃ fault, read (header ++ rest) = .error fault := by
  refine ⟨fun payloads h => ?_, fun payload sent => ?_, fun header rest hsize h => ?_⟩
  · exact ⟨stream payloads, by simpa using forM_write h [], readAll_stream h⟩
  · by_cases h : maxLength < payload.length
    · rw [write_of_lt h]
      exact ⟨⟨fun _ => h, fun _ => ⟨_, rfl⟩⟩, fun _ => rfl⟩
    · rw [write_of_le (Nat.not_lt.1 h)]
      refine ⟨⟨?_, fun hlong => absurd hlong h⟩, fun hlong => absurd hlong h⟩
      rintro ⟨fault, hfault⟩
      cases hfault
  · exact ⟨_, read_of_header hsize h⟩

/-- An empty message, one that looks like the length of another, and a length just beyond the
limit. -/
theorem write_read_faithful_headerLike :
    (∃ sent, ([[], [3, 0, 0, 0], [7]].forM write).run.run [] = (.ok (), sent) ∧
      readAll sent = ([[], [3, 0, 0, 0], [7]], none)) ∧
    ((write (List.replicate (maxLength + 1) 0)).run.run [9]).2 = [9] ∧
    ∃ fault, read ([1, 0, 0, 4] ++ [5]) = .error fault := by
  obtain ⟨hround, hwrite, hread⟩ := write_read_faithful
  refine ⟨hround _ (by decide), ?_, hread _ _ rfl (by decide)⟩
  exact (hwrite _ [9]).2 (by rw [length_replicate]; exact Nat.lt_succ_self _)

end ShaderDialect.Frame
