/-! Recognizers split their match off the front of the input. A recognizer `Splits` when nothing of
the input is lost, and `Consumes` when the match is moreover not empty. -/
namespace ShaderDialect

abbrev Recognizer := List Char → Option (List Char × List Char)

namespace Recognizer
variable {cs a b : List Char}

/-- The longest run of characters in a class, which may be empty. -/
def run (p : Char → Bool) : Recognizer := fun cs => some (cs.takeWhile p, cs.dropWhile p)

/-- The longest run of characters in a class, which must not be empty. -/
def run1 (p : Char → Bool) : Recognizer
  | [] => none
  | c :: cs => if p c then some (c :: cs.takeWhile p, cs.dropWhile p) else none

def one (p : Char → Bool) : Recognizer
  | [] => none
  | c :: cs => if p c then some ([c], cs) else none

def exactly : List Char → Recognizer
  | [], cs => some ([], cs)
  | _ :: _, [] => none
  | x :: xs, c :: cs =>
    if x = c then (exactly xs cs).map fun (a, b) => (c :: a, b) else none

def seq (m n : Recognizer) : Recognizer := fun cs =>
  match m cs with
  | none => none
  | some (a, cs) =>
    match n cs with
    | none => none
    | some (b, cs) => some (a ++ b, cs)

def or (m n : Recognizer) : Recognizer := fun cs =>
  match m cs with
  | none => n cs
  | some r => some r

/-- A match if there is one, and the empty match otherwise. -/
def opt (m : Recognizer) : Recognizer := fun cs => (m cs).getD ([], cs)

/-- A match that a character of the class follows, which is not part of the match. -/
def before (m : Recognizer) (p : Char → Bool) : Recognizer := fun cs =>
  match m cs with
  | some (a, c :: cs) => if p c then some (a, c :: cs) else none
  | _ => none

/-- Everything up to and including the first `*/`. -/
def throughClose : Recognizer
  | [] => none
  | [_] => none
  | c :: d :: cs =>
    if c = '*' ∧ d = '/' then some ([c, d], cs)
    else (throughClose (d :: cs)).map fun (a, b) => (c :: a, b)

def Splits (m : Recognizer) : Prop := ∀ cs a b, m cs = some (a, b) → a ++ b = cs

def Consumes (m : Recognizer) : Prop := ∀ cs a b, m cs = some (a, b) → a ++ b = cs ∧ a ≠ []

variable {m n : Recognizer} {p : Char → Bool}

theorem Consumes.splits (h : m.Consumes) : m.Splits := fun cs a b e => (h cs a b e).1

theorem Consumes.length_lt (h : m.Consumes) (e : m cs = some (a, b)) : b.length < cs.length := by
  obtain ⟨rfl, ha⟩ := h cs a b e
  have : 0 < a.length := List.length_pos_iff.2 ha
  simp; omega

theorem splits_run : (run p).Splits := by
  intro cs a b e
  simp only [run, Option.some.injEq, Prod.mk.injEq] at e
  rw [← e.1, ← e.2, List.takeWhile_append_dropWhile]

theorem consumes_run1 : (run1 p).Consumes := by
  intro cs a b e
  cases cs with
  | nil => simp [run1] at e
  | cons c cs =>
    simp only [run1] at e
    split at e
    · simp only [Option.some.injEq, Prod.mk.injEq] at e
      rw [← e.1, ← e.2]
      simp [List.takeWhile_append_dropWhile]
    · simp at e

theorem consumes_one : (one p).Consumes := by
  intro cs a b e
  cases cs with
  | nil => simp [one] at e
  | cons c cs =>
    simp only [one] at e
    split at e
    · simp only [Option.some.injEq, Prod.mk.injEq] at e
      simp [← e.1, ← e.2]
    · simp at e

theorem splits_exactly (xs : List Char) : (exactly xs).Splits := by
  intro cs
  induction xs generalizing cs with
  | nil => intro a b e; simp [exactly] at e; simp [← e.1, e.2]
  | cons x xs ih =>
    intro a b e
    cases cs with
    | nil => simp [exactly] at e
    | cons c cs =>
      simp only [exactly] at e
      split at e
      · obtain ⟨⟨a', b'⟩, he, hab⟩ := Option.map_eq_some_iff.1 e
        simp only [Prod.mk.injEq] at hab
        simp [← hab.1, ← hab.2, ih cs a' b' he]
      · simp at e

theorem consumes_exactly_cons (x : Char) (xs : List Char) : (exactly (x :: xs)).Consumes := by
  intro cs a b e
  refine ⟨splits_exactly _ cs a b e, ?_⟩
  rintro rfl
  cases cs with
  | nil => simp [exactly] at e
  | cons c cs =>
    simp only [exactly] at e
    split at e
    · obtain ⟨⟨a', b'⟩, _, hab⟩ := Option.map_eq_some_iff.1 e
      simp at hab
    · simp at e

theorem seq_eq_some (e : seq m n cs = some (a, b)) :
    ∃ x y z, m cs = some (x, y) ∧ n y = some (z, b) ∧ a = x ++ z := by
  simp only [seq] at e
  split at e
  · simp at e
  · rename_i x y hm
    split at e
    · simp at e
    · rename_i z w hn
      simp only [Option.some.injEq, Prod.mk.injEq] at e
      exact ⟨x, y, z, hm, by rw [hn, e.2], e.1.symm⟩

theorem Splits.seq (hm : m.Splits) (hn : n.Splits) : (seq m n).Splits := by
  intro cs a b e
  obtain ⟨x, y, z, h₁, h₂, rfl⟩ := seq_eq_some e
  rw [List.append_assoc, hn _ _ _ h₂, hm _ _ _ h₁]

theorem Consumes.seq (hm : m.Consumes) (hn : n.Splits) : (seq m n).Consumes := by
  intro cs a b e
  refine ⟨hm.splits.seq hn cs a b e, ?_⟩
  obtain ⟨x, y, z, h₁, _, rfl⟩ := seq_eq_some e
  simp [(hm _ _ _ h₁).2]

theorem Splits.seq_consumes (hm : m.Splits) (hn : n.Consumes) : (Recognizer.seq m n).Consumes := by
  intro cs a b e
  refine ⟨hm.seq hn.splits cs a b e, ?_⟩
  obtain ⟨x, y, z, _, h₂, rfl⟩ := seq_eq_some e
  simp [(hn _ _ _ h₂).2]

theorem Consumes.or (hm : m.Consumes) (hn : n.Consumes) : (or m n).Consumes := by
  intro cs a b e
  simp only [Recognizer.or] at e
  split at e
  · exact hn cs a b e
  · rename_i r hr
    exact hm cs a b (hr.trans e)

theorem Splits.opt (hm : m.Splits) : (opt m).Splits := by
  intro cs a b e
  simp only [Recognizer.opt, Option.some.injEq] at e
  cases h : m cs with
  | none => simp [h] at e; simp [← e.1, ← e.2]
  | some r => simp [h] at e; exact hm cs a b (by rw [h, e])

theorem Consumes.before (hm : m.Consumes) : (before m p).Consumes := by
  intro cs a b e
  simp only [Recognizer.before] at e
  split at e
  · rename_i x c y hr
    split at e
    · simp only [Option.some.injEq, Prod.mk.injEq] at e
      exact hm cs a b (by rw [hr, e.1, e.2])
    · simp at e
  · simp at e

theorem consumes_throughClose : throughClose.Consumes := by
  intro cs
  fun_induction throughClose cs with
  | case1 => simp
  | case2 => simp
  | case3 c d cs h => intro a b e; simp at e; simp [← e.1, ← e.2]
  | case4 c d cs h ih =>
    intro a b e
    obtain ⟨⟨a', b'⟩, he, hab⟩ := Option.map_eq_some_iff.1 e
    simp only [Prod.mk.injEq] at hab
    simp [← hab.1, ← hab.2, (ih a' b' he).1]

end Recognizer
end ShaderDialect
