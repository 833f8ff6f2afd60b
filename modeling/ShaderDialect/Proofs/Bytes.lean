import Mathlib.Algebra.GroupWithZero.Nat
import ShaderDialect.Bytes

/-! Parts of a list of bytes, and numbers that are read where they were written. -/
namespace ShaderDialect.Bytes
open List

theorem toNat_ofNat (width n : Nat) : toNat (ofNat width n) = n % 256 ^ width := by
  induction width generalizing n with
  | zero => simp [ofNat, toNat, Nat.mod_one]
  | succ width ih =>
    rw [ofNat, toNat, ih, Nat.pow_succ, Nat.mul_comm (256 ^ width) 256, Nat.mod_mul]
    simp

theorem ofNat_inj {width n m : Nat} (hn : n < 256 ^ width) (hm : m < 256 ^ width)
    (h : ofNat width n = ofNat width m) : n = m := by
  have := congrArg toNat h
  rwa [toNat_ofNat, toNat_ofNat, Nat.mod_eq_of_lt hn, Nat.mod_eq_of_lt hm] at this

variable {data part : List UInt8} {start length width n : Nat}

theorem slice?_eq_some : slice? data start length = some part ↔
    ∃ front back, data = front ++ (part ++ back) ∧ front.length = start ∧ part.length = length := by
  constructor
  · intro h
    rw [slice?] at h
    split at h
    · next hle =>
      cases h
      refine ⟨data.take start, (data.drop start).drop length, ?_, ?_, ?_⟩
      · rw [take_append_drop, take_append_drop]
      · rw [length_take]; omega
      · rw [length_take, length_drop]; omega
    · cases h
  · rintro ⟨front, back, rfl, rfl, rfl⟩
    rw [slice?, if_pos (by simp only [length_append]; omega), drop_left, take_left]

theorem slice?_of_longer {data' : List UInt8} (hp : data <+: data')
    (h : slice? data start length = some part) : slice? data' start length = some part := by
  obtain ⟨front, back, rfl, hstart, hlength⟩ := slice?_eq_some.1 h
  obtain ⟨more, rfl⟩ := hp
  exact slice?_eq_some.2 ⟨front, back ++ more, by simp, hstart, hlength⟩

theorem length_le_of_slice? (h : slice? data start length = some part) :
    start + length ≤ data.length := by
  obtain ⟨front, back, rfl, rfl, rfl⟩ := slice?_eq_some.1 h
  simp only [length_append]
  omega

theorem read?_eq_some : read? width data start = some n ↔
    ∃ part, slice? data start width = some part ∧ toNat part = n := by
  rw [read?, Option.map_eq_some_iff]

theorem read?_of_longer {data' : List UInt8} (hp : data <+: data')
    (h : read? width data start = some n) : read? width data' start = some n := by
  obtain ⟨part, hpart, hn⟩ := read?_eq_some.1 h
  exact read?_eq_some.2 ⟨part, slice?_of_longer hp hpart, hn⟩

theorem slice?_append_left (front data : List UInt8) (start length : Nat) :
    slice? (front ++ data) (front.length + start) length = slice? data start length := by
  rw [slice?, slice?, length_append, drop_append, drop_eq_nil_of_le (by omega),
    nil_append, Nat.add_sub_cancel_left]
  simp only [Nat.add_assoc, Nat.add_le_add_iff_left]

theorem read?_append_left (width : Nat) (front data : List UInt8) (start : Nat) :
    read? width (front ++ data) (front.length + start) = read? width data start := by
  rw [read?, read?, slice?_append_left]

theorem read?_ofNat (back : List UInt8) (hn : n < 256 ^ width) :
    read? width (ofNat width n ++ back) 0 = some n :=
  read?_eq_some.2 ⟨ofNat width n, slice?_eq_some.2 ⟨[], back, rfl, rfl, length_ofNat width n⟩,
    (toNat_ofNat width n).trans (Nat.mod_eq_of_lt hn)⟩

theorem read?_skip (w m : Nat) (data : List UInt8) (start : Nat) :
    read? width (ofNat w m ++ data) (w + start) = read? width data start := by
  have h := read?_append_left width (ofNat w m) data start
  rwa [length_ofNat] at h

end ShaderDialect.Bytes
