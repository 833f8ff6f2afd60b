import Mathlib.Data.List.Basic
import ShaderDialect.Text.Base64

/-! Bytes that were written as text are read back from it, and how long the text is. -/
namespace ShaderDialect.Text
open List

theorem base64Value?_base64Digit : ∀ n < 64, base64Value? (base64Digit n) = some n := by decide

theorem base64Digit_ne_pad : ∀ n < 64, base64Digit n ≠ '=' := by decide

theorem ofNat_of_mod {n : Nat} {b : UInt8} (h : n % 256 = b.toNat) : UInt8.ofNat n = b := by
  apply UInt8.toNat_inj.1
  rw [UInt8.toNat_ofNat']
  exact h

theorem base64Group_eq (digits n : Nat) :
    base64Group digits n = ([n / 262144 % 64, n / 4096 % 64, n / 64 % 64, n % 64].map
      base64Digit).take digits := by
  have hrange : List.range 4 = [0, 1, 2, 3] := rfl
  rw [base64Group, ← map_take, hrange]
  simp [map_take, Nat.shiftRight_eq_div_pow]

section Groups
variable {w x y z : Nat}

theorem base64Last?_one (hw : w < 64) (hx : x < 64) (h : (64 * w + x) % 16 = 0) :
    base64Last? (base64Digit w) (base64Digit x) '=' '=' =
      some [UInt8.ofNat ((64 * w + x) / 16)] := by
  simp [base64Last?, base64Value?_base64Digit w hw, base64Value?_base64Digit x hx, h]

theorem base64Last?_two (hw : w < 64) (hx : x < 64) (hy : y < 64)
    (h : (64 * (64 * w + x) + y) % 4 = 0) :
    base64Last? (base64Digit w) (base64Digit x) (base64Digit y) '=' =
      some [UInt8.ofNat ((64 * (64 * w + x) + y) / 1024),
        UInt8.ofNat ((64 * (64 * w + x) + y) / 4)] := by
  simp [base64Last?, base64Value?_base64Digit w hw, base64Value?_base64Digit x hx,
    base64Value?_base64Digit y hy, base64Digit_ne_pad y hy, h]

theorem base64Last?_three (hw : w < 64) (hx : x < 64) (hy : y < 64) (hz : z < 64) :
    base64Last? (base64Digit w) (base64Digit x) (base64Digit y) (base64Digit z) =
      some [UInt8.ofNat ((64 * (64 * (64 * w + x) + y) + z) / 65536),
        UInt8.ofNat ((64 * (64 * (64 * w + x) + y) + z) / 256),
        UInt8.ofNat (64 * (64 * (64 * w + x) + y) + z)] := by
  simp [base64Last?, base64Value?_base64Digit w hw, base64Value?_base64Digit x hx,
    base64Value?_base64Digit y hy, base64Value?_base64Digit z hz, base64Digit_ne_pad y hy,
    base64Digit_ne_pad z hz]

end Groups

theorem base64Decode?_chars (bytes : List UInt8) :
    base64Decode? (base64Chars bytes) = some bytes := by
  fun_induction base64Chars bytes with
  | case1 => rfl
  | case2 a =>
    have ha := a.toNat_lt
    have hgroup := base64Last?_one (w := a.toNat * 65536 / 262144 % 64)
      (x := a.toNat * 65536 / 4096 % 64) (by omega) (by omega) (by omega)
    have hbyte := @ofNat_of_mod
      ((64 * (a.toNat * 65536 / 262144 % 64) + a.toNat * 65536 / 4096 % 64) / 16) a (by omega)
    simp [base64Group_eq, base64Decode?, hgroup, hbyte]
  | case3 a b =>
    have ha := a.toNat_lt
    have hb := b.toNat_lt
    generalize hn : a.toNat * 65536 + b.toNat * 256 = n
    have hgroup := base64Last?_two (w := n / 262144 % 64) (x := n / 4096 % 64) (y := n / 64 % 64)
      (by omega) (by omega) (by omega) (by omega)
    have hfirst := @ofNat_of_mod
      ((64 * (64 * (n / 262144 % 64) + n / 4096 % 64) + n / 64 % 64) / 1024) a (by omega)
    have hsecond := @ofNat_of_mod
      ((64 * (64 * (n / 262144 % 64) + n / 4096 % 64) + n / 64 % 64) / 4) b (by omega)
    simp [base64Group_eq, base64Decode?, hgroup, hfirst, hsecond]
  | case4 a b c rest ih =>
    have ha := a.toNat_lt
    have hb := b.toNat_lt
    have hc := c.toNat_lt
    generalize hn : a.toNat * 65536 + b.toNat * 256 + c.toNat = n
    have hgroup := base64Last?_three (w := n / 262144 % 64) (x := n / 4096 % 64)
      (y := n / 64 % 64) (z := n % 64) (by omega) (by omega) (by omega) (by omega)
    -- The four places hold all of the group's bits.
    have hwhole : 64 * (64 * (64 * (n / 262144 % 64) + n / 4096 % 64) + n / 64 % 64) +
        n % 64 = n := by
      omega
    have hfirst := @ofNat_of_mod (n / 65536) a (by omega)
    have hsecond := @ofNat_of_mod (n / 256) b (by omega)
    have hthird := @ofNat_of_mod n c (by omega)
    rw [hwhole] at hgroup
    simp [base64Group_eq, base64Decode?, hgroup, hfirst, hsecond, hthird, ih,
      base64Digit_ne_pad (n / 64 % 64) (by omega), base64Digit_ne_pad (n % 64) (by omega)]

theorem length_base64Chars (bytes : List UInt8) :
    (base64Chars bytes).length = 4 * ((bytes.length + 2) / 3) := by
  fun_induction base64Chars bytes with
  | case1 => rfl
  | case2 a => simp [base64Group_eq]
  | case3 a b => simp [base64Group_eq]
  | case4 a b c rest ih =>
    simp only [base64Group_eq, length_append, ih, length_cons]
    simp only [length_take, length_map, length_cons, length_nil]
    omega

theorem mem_base64Group {digits n : Nat} {c : Char} (h : c ∈ base64Group digits n) :
    ∃ m < 64, c = base64Digit m := by
  obtain ⟨i, _, rfl⟩ := mem_map.1 h
  exact ⟨_, Nat.mod_lt _ (by omega), rfl⟩

theorem mem_base64Chars {bytes : List UInt8} {c : Char} (h : c ∈ base64Chars bytes) :
    (∃ n < 64, c = base64Digit n) ∨ c = '=' := by
  fun_induction base64Chars bytes with
  | case1 => cases h
  | case2 a =>
    rcases mem_append.1 h with h | h
    · exact Or.inl (mem_base64Group h)
    · right
      simpa using h
  | case3 a b =>
    rcases mem_append.1 h with h | h
    · exact Or.inl (mem_base64Group h)
    · right
      simpa using h
  | case4 a b c rest ih =>
    rcases mem_append.1 h with h | h
    · exact Or.inl (mem_base64Group h)
    · exact ih h

end ShaderDialect.Text
