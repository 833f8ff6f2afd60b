/-! Text and its UTF-8 bytes. -/
namespace ShaderDialect.Text

def utf8 (s : String) : List UInt8 := s.toUTF8.data.toList

def ofUtf8? (bytes : List UInt8) : Option String := String.fromUTF8? ⟨bytes.toArray⟩

/-- How many bytes follow a first byte, and the range of the byte after it. -/
def sequence? (b : UInt8) : Option (Nat × UInt8 × UInt8) :=
  if 0xC2 ≤ b ∧ b ≤ 0xDF then some (1, 0x80, 0xBF)
  else if b = 0xE0 then some (2, 0xA0, 0xBF)
  else if b = 0xED then some (2, 0x80, 0x9F)
  else if 0xE1 ≤ b ∧ b ≤ 0xEF then some (2, 0x80, 0xBF)
  else if b = 0xF0 then some (3, 0x90, 0xBF)
  else if 0xF1 ≤ b ∧ b ≤ 0xF3 then some (3, 0x80, 0xBF)
  else if b = 0xF4 then some (3, 0x80, 0x8F)
  else none

/-- The bytes that continue a character: at most `n`, the first of them in a range of its own. -/
def continuation : Nat → UInt8 → UInt8 → List UInt8 → List UInt8 × List UInt8
  | 0, _, _, bs => ([], bs)
  | _, _, _, [] => ([], [])
  | n + 1, lo, hi, b :: bs =>
    if lo ≤ b ∧ b ≤ hi then
      let (taken, rest) := continuation n 0x80 0xBF bs
      (b :: taken, rest)
    else ([], b :: bs)

theorem continuation_length (n : Nat) (lo hi : UInt8) (bs : List UInt8) :
    (continuation n lo hi bs).2.length ≤ bs.length := by
  induction bs generalizing n lo hi with
  | nil => cases n <;> simp [continuation]
  | cons b bs ih =>
    cases n with
    | zero => simp [continuation]
    | succ n =>
      simp only [continuation]
      split
      · exact Nat.le_succ_of_le (ih n 0x80 0xBF)
      · simp

/-- The text of any bytes; each longest run that starts a character and does not end it, and each
byte that starts none, becomes the replacement character. -/
def ofUtf8Lossy : List UInt8 → List Char
  | [] => []
  | b :: bs =>
    if b < 0x80 then Char.ofNat b.toNat :: ofUtf8Lossy bs
    else match sequence? b with
      | none => '�' :: ofUtf8Lossy bs
      | some (n, lo, hi) =>
        let r := continuation n lo hi bs
        have := continuation_length n lo hi bs
        if r.1.length = n then
          ((ofUtf8? (b :: r.1)).getD "").toList ++ ofUtf8Lossy r.2
        else '�' :: ofUtf8Lossy r.2
termination_by bs => bs.length
decreasing_by
  · exact Nat.lt_succ_self _
  · exact Nat.lt_succ_self _
  · exact Nat.lt_succ_of_le this
  · exact Nat.lt_succ_of_le this

end ShaderDialect.Text
