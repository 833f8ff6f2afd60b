import ShaderDialect.Bytes
import ShaderDialect.Failure

/-! Messages on a connection: four bytes of length, then the bytes of the message. -/
namespace ShaderDialect.Frame

def maxLength : Nat := 64 <<< 20

/-- Sending on a connection, which keeps what has been sent, also when it fails. -/
abbrev Sending (α : Type) := ExceptT ReloadFault (StateM (List UInt8)) α

/-- Sends a message after everything that has been sent before. -/
def write (payload : List UInt8) : Sending Unit := do
  if maxLength < payload.length then throw (.frameTooLong payload.length)
  modify (· ++ Bytes.ofNat 4 payload.length)
  modify (· ++ payload)

def encode (payload : List UInt8) : Except ReloadFault (List UInt8) :=
  match (write payload).run.run [] with
  | (.ok (), sent) => .ok sent
  | (.error fault, _) => .error fault

/-- The first message of a stream and what follows it. A stream that ends before the length is
complete has no further message. -/
def read (stream : List UInt8) : Except ReloadFault (Option (List UInt8 × List UInt8)) :=
  match Bytes.read? 4 stream 0 with
  | none => .ok none
  | some length =>
    if maxLength < length then .error (.frameTooLong length)
    else
      match Bytes.slice? stream 4 length with
      | none => .error (.frameCut length)
      | some payload => .ok (some (payload, stream.drop (4 + length)))

theorem length_lt_of_read {stream payload rest : List UInt8}
    (h : read stream = .ok (some (payload, rest))) : rest.length < stream.length := by
  unfold read at h
  split at h
  · simp at h
  · rename_i length hl
    split at h
    · simp at h
    · split at h
      · simp at h
      · simp only [Except.ok.injEq, Option.some.injEq, Prod.mk.injEq] at h
        have hs : 4 ≤ stream.length := by
          simp only [Bytes.read?, Bytes.slice?, Option.map_eq_some_iff] at hl
          obtain ⟨_, hs, _⟩ := hl
          split at hs
          · omega
          · simp at hs
        rw [← h.2, List.length_drop]
        omega

/-- All messages of a stream, and what is wrong with its end. -/
def readAll (stream : List UInt8) : List (List UInt8) × Option ReloadFault :=
  match h : read stream with
  | .error fault => ([], some fault)
  | .ok none => ([], none)
  | .ok (some (payload, rest)) =>
    have := length_lt_of_read h
    let (payloads, fault) := readAll rest
    (payload :: payloads, fault)
termination_by stream.length

end ShaderDialect.Frame
