import ShaderDialect.Bytes
import ShaderDialect.Failure

/-! Variants of one output, stored together and found by target and features. -/
namespace ShaderDialect

structure Variant where
  target : Target
  features : FeatureSet
  bytes : List UInt8
  deriving Repr, DecidableEq

/-- Variants are ordered by target and then by features. -/
def variantKey (target : Target) (features : FeatureSet) : Nat := 64 * target.code + features.toNat

def Variant.key (v : Variant) : Nat := variantKey v.target v.features

structure VariantContainer where
  variants : List Variant
  sorted : variants.Pairwise fun a b => a.key < b.key
  deriving Repr

namespace VariantContainer
variable {v : Variant} {vs ws : List Variant}

def empty : VariantContainer := ⟨[], .nil⟩

/-- The list with a variant at its place, unless there is one of its key. -/
def place? (v : Variant) : List Variant → Option (List Variant)
  | [] => some [v]
  | w :: ws =>
    if v.key < w.key then some (v :: w :: ws)
    else if w.key < v.key then (place? v ws).map (w :: ·)
    else none

theorem perm_place? (h : place? v vs = some ws) : ws.Perm (v :: vs) := by
  induction vs generalizing ws with
  | nil => simp only [place?, Option.some.injEq] at h; simp [← h]
  | cons x xs ih =>
    rw [place?] at h
    split at h
    · simp only [Option.some.injEq] at h
      exact .of_eq h.symm
    · split at h
      · obtain ⟨ys, hy, rfl⟩ := Option.map_eq_some_iff.1 h
        exact ((ih hy).cons x).trans (.swap v x xs)
      · cases h

theorem sorted_place? (h : place? v vs = some ws) (hs : vs.Pairwise fun a b => a.key < b.key) :
    ws.Pairwise fun a b => a.key < b.key := by
  induction vs generalizing ws with
  | nil => simp only [place?, Option.some.injEq] at h; simp [← h]
  | cons x xs ih =>
    have hx := List.pairwise_cons.1 hs
    rw [place?] at h
    split at h
    · next hlt =>
      simp only [Option.some.injEq] at h
      subst h
      refine List.pairwise_cons.2 ⟨fun w hw => ?_, hs⟩
      rcases List.mem_cons.1 hw with rfl | hw
      · exact hlt
      · exact Nat.lt_trans hlt (hx.1 w hw)
    · split at h
      · next hlt =>
        obtain ⟨ys, hy, rfl⟩ := Option.map_eq_some_iff.1 h
        refine List.pairwise_cons.2 ⟨fun w hw => ?_, ih hy hx.2⟩
        rcases List.mem_cons.1 ((perm_place? hy).mem_iff.1 hw) with rfl | hw
        · exact hlt
        · exact hx.1 w hw
      · cases h

/-- The container with a variant in its place, unless it holds one for the same target and
features. -/
def with? (c : VariantContainer) (v : Variant) : Option VariantContainer :=
  match h : place? v c.variants with
  | some vs => some ⟨vs, sorted_place? h c.sorted⟩
  | none => none

/-- What changes a container and may fail. The changes that have been made before a failure stay. -/
abbrev Storing (α : Type) := ExceptT ContainerFault (StateM VariantContainer) α

def add (v : Variant) : Storing Unit := do
  set (← ((← get).with? v).getDM (throw (.duplicate v.target v.features)))

theorem run_add (v : Variant) (c : VariantContainer) : (add v).run.run c =
    (c.with? v).elim (.error (.duplicate v.target v.features), c) (.ok (), ·) := by
  have hrun : (add v).run.run c = (((c.with? v).getDM (throw (.duplicate v.target v.features)) >>=
      set : Storing Unit)).run.run c := rfl
  rw [hrun]
  cases c.with? v <;> rfl

def insert (c : VariantContainer) (v : Variant) : Except ContainerFault VariantContainer :=
  let (answer, d) := (add v).run.run c
  answer.map fun _ => d

def lookup (c : VariantContainer) (target : Target) (features : FeatureSet) :
    Except Failure (List UInt8) :=
  match c.variants.find? (·.key == variantKey target features) with
  | some v => .ok v.bytes
  | none => .error (.noMatchingVariant target features)

def magic : List UInt8 := [0x46, 0x53, 0x4c, 0x56]

def version : Nat := 1

def headLength : Nat := 12

def entryLength : Nat := 28

/-- The directory of variants whose bytes start at an offset. -/
def directory : (offset : Nat) → List Variant → List UInt8
  | _, [] => []
  | offset, v :: vs =>
    Bytes.ofNat 4 v.target.code ++ Bytes.ofNat 8 v.features.toNat ++ Bytes.ofNat 8 offset ++
      Bytes.ofNat 8 v.bytes.length ++ directory (offset + v.bytes.length) vs

/-- A head with the number of variants, the directory, and the bytes of all variants. -/
def toBytes (c : VariantContainer) : List UInt8 :=
  let count := c.variants.length
  magic ++ Bytes.ofNat 4 version ++ Bytes.ofNat 4 count ++
    directory (headLength + entryLength * count) c.variants ++ c.variants.flatMap Variant.bytes

def number (width : Nat) (data : List UInt8) (start : Nat) : Except ContainerFault Nat :=
  match Bytes.read? width data start with
  | some n => .ok n
  | none => .error .truncated

def entry (data : List UInt8) (position : Nat) : Except ContainerFault Variant := do
  let start := headLength + entryLength * position
  let code ← number 4 data start
  let bits ← number 8 data (start + 4)
  let offset ← number 8 data (start + 12)
  let length ← number 8 data (start + 20)
  let some target := Target.ofCode? code | throw (.unknownTarget code)
  let some features := FeatureSet.ofNat? bits | throw (.unknownFeatures bits)
  let some bytes := Bytes.slice? data offset length | throw (.outside position)
  return { target, features, bytes }

/-- Reads a number of entries, from a position of the directory on. -/
def entries (data : List UInt8) : (count position : Nat) → VariantContainer →
    Except ContainerFault VariantContainer
  | 0, _, c => .ok c
  | count + 1, position, c => do
    let v ← entry data position
    entries data count (position + 1) (← c.insert v)

def ofBytes (data : List UInt8) : Except ContainerFault VariantContainer := do
  if data.length < headLength ∨ data.take 4 ≠ magic then throw .notContainer
  let found ← number 4 data 4
  if found ≠ version then throw (.version found)
  entries data (← number 4 data 8) 0 empty

end VariantContainer
end ShaderDialect
