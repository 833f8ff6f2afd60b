import Mathlib.Data.List.DropRight
import Mathlib.Data.List.Infix
import ShaderDialect.Proofs.Expression.Joining

/-! Texts that are cut behind a match. Each kind of token is recognized again in its own text, where
the kinds that are tried before it still fail. -/
namespace ShaderDialect
open List

namespace Recognizer
variable {a : List Char} (xs : List Char)

/-- A match stays when the text is cut anywhere behind it. -/
def Cuts (m : Recognizer) : Prop :=
  ∀ cs a z b, m cs = some (a, z ++ b) → m (a ++ z) = some (a, z)

/-- A text with a match has one when more text follows. -/
def Lasts (m : Recognizer) : Prop := ∀ cs rest, (m cs).isSome → (m (cs ++ rest)).isSome

/-- A match that some text follows stays when more text follows. -/
def Firm (m : Recognizer) : Prop :=
  ∀ cs a c b rest, m cs = some (a, c :: b) → m (cs ++ rest) = some (a, c :: b ++ rest)

/-- A match has an end of its own. -/
def Closed (m : Recognizer) : Prop :=
  ∀ cs a b rest, m cs = some (a, b) → m (cs ++ rest) = some (a, b ++ rest)

/-- Every text has a match, which may be empty. -/
def Total (m : Recognizer) : Prop := ∀ cs, (m cs).isSome

variable {m n k : Recognizer} {p : Char → Bool} {cs b : List Char}

theorem Cuts.whole (h : m.Cuts) (e : m cs = some (a, b)) : m a = some (a, []) := by
  simpa using h cs a [] b e

theorem Lasts.none (h : m.Lasts) {cs rest : List Char} (e : m (cs ++ rest) = none) :
    m cs = none := by
  cases hm : m cs with
  | none => rfl
  | some r =>
    have hsome := h cs rest (by rw [hm]; rfl)
    rw [e] at hsome
    cases hsome

theorem Closed.firm (h : m.Closed) : m.Firm := fun cs a c b rest e => h cs a (c :: b) rest e

theorem Closed.lasts (h : m.Closed) : m.Lasts := by
  intro cs rest hsome
  obtain ⟨⟨a, b⟩, e⟩ := Option.isSome_iff_exists.1 hsome
  rw [h cs a b rest e]
  rfl

theorem total_run : (run p).Total := fun _ => rfl

theorem total_opt : (opt m).Total := fun _ => rfl

theorem seq_of_some {x y : List Char} (hm : m cs = some (a, b)) (hn : n b = some (x, y)) :
    seq m n cs = some (a ++ x, y) := by
  simp only [seq, hm, hn]

theorem Total.seq (hm : m.Total) (hn : n.Total) : (seq m n).Total := by
  intro cs
  obtain ⟨⟨a, b⟩, hm⟩ := Option.isSome_iff_exists.1 (hm cs)
  obtain ⟨⟨x, y⟩, hn⟩ := Option.isSome_iff_exists.1 (hn b)
  rw [seq_of_some hm hn]
  rfl

theorem closed_one : (one p).Closed := by
  intro cs a b rest e
  cases cs with
  | nil => cases e
  | cons c cs =>
    by_cases hc : p c
    · simp only [one, hc, if_true, Option.some.injEq, Prod.mk.injEq] at e
      simp [one, hc, ← e.1, ← e.2]
    · simp [one, hc] at e

theorem closed_exactly : (exactly xs).Closed := by
  intro cs a b rest e
  obtain ⟨rfl, rfl⟩ := Scan.exactly_eq_some_iff.1 e
  exact Scan.exactly_eq_some_iff.2 ⟨rfl, append_assoc a b rest⟩

theorem Closed.seq (hm : m.Closed) (hn : n.Closed) : (seq m n).Closed := by
  intro cs a b rest e
  obtain ⟨x, y, z, hx, hz, rfl⟩ := seq_eq_some e
  exact seq_of_some (hm cs x y rest hx) (hn y z b rest hz)

theorem firm_run : (run p).Firm := fun _ _ _ _ rest e => Scan.run_append e rest

theorem firm_opt_one : (opt (one p)).Firm := by
  intro cs a c b rest e
  cases cs with
  | nil => cases e
  | cons d cs =>
    by_cases hd : p d
    · simp only [opt, one, hd, if_true, Option.getD_some, Option.some.injEq, Prod.mk.injEq] at e
      simp [opt, one, hd, ← e.1, e.2]
    · simp_all [opt, one]

theorem Firm.seq (hm : m.Firm) (hn : n.Firm) (hsplit : n.Splits) : (seq m n).Firm := by
  intro cs a c b rest e
  obtain ⟨x, y, z, hx, hz, rfl⟩ := seq_eq_some e
  obtain ⟨d, y, rfl⟩ : ∃ d y', y = d :: y' := by
    apply exists_cons_of_ne_nil
    rintro rfl
    simpa using hsplit [] z (c :: b) hz
  exact seq_of_some (hm cs x d y rest hx) (hn (d :: y) z c b rest hz)

theorem Lasts.seq (hm : m.Firm) (hn : n.Lasts) (hconsumes : n.Consumes) : (seq m n).Lasts := by
  intro cs rest hsome
  obtain ⟨⟨a, b⟩, e⟩ := Option.isSome_iff_exists.1 hsome
  obtain ⟨x, y, z, hx, hz, rfl⟩ := seq_eq_some e
  obtain ⟨hyz, hne⟩ := hconsumes y z b hz
  obtain ⟨d, y, rfl⟩ : ∃ d y', y = d :: y' := by
    apply exists_cons_of_ne_nil
    rintro rfl
    exact hne (append_eq_nil_iff.1 hyz).1
  have hlast := hn (d :: y) rest (by rw [hz]; rfl)
  obtain ⟨⟨z', b'⟩, hz'⟩ := Option.isSome_iff_exists.1 hlast
  rw [seq_of_some (hm cs x d y rest hx) hz']
  rfl

theorem Lasts.seq_total (hm : m.Lasts) (hn : n.Total) : (Recognizer.seq m n).Lasts := by
  intro cs rest hsome
  obtain ⟨⟨a, b⟩, e⟩ := Option.isSome_iff_exists.1 hsome
  obtain ⟨x, y, z, hx, hz, rfl⟩ := seq_eq_some e
  obtain ⟨⟨x', y'⟩, hx'⟩ := Option.isSome_iff_exists.1 (hm cs rest (by rw [hx]; rfl))
  obtain ⟨⟨z', b'⟩, hz'⟩ := Option.isSome_iff_exists.1 (hn y')
  rw [seq_of_some hx' hz']
  rfl

theorem isSome_or : (or m n cs).isSome ↔ (m cs).isSome ∨ (n cs).isSome := by
  simp only [or]
  cases m cs <;> simp

theorem Lasts.or (hm : m.Lasts) (hn : n.Lasts) : (or m n).Lasts := by
  intro cs rest hsome
  rw [isSome_or] at hsome ⊢
  exact hsome.imp (hm cs rest) (hn cs rest)

theorem cuts_run : (run p).Cuts := by
  intro cs a z b e
  obtain ⟨rfl, hdrop⟩ := Prod.mk.inj (Option.some.inj e)
  have hpos : ∀ c ∈ cs.takeWhile p, p c := fun c hc => mem_takeWhile_imp hc
  have hstop : z.takeWhile p = [] ∧ z.dropWhile p = z := by
    cases z with
    | nil => exact ⟨rfl, rfl⟩
    | cons d z =>
      have hidem : (d :: z ++ b).dropWhile p = d :: z ++ b := hdrop ▸ dropWhile_idempotent p cs
      have hd : ¬ p d := by simpa using (dropWhile_eq_self_iff.1 hidem)
      simp [hd]
  simp only [run, takeWhile_append_of_pos hpos, dropWhile_append_of_pos hpos, hstop,
    append_nil]

theorem cuts_one : (one p).Cuts := by
  intro cs a z b e
  cases cs with
  | nil => cases e
  | cons c cs =>
    by_cases hc : p c
    · simp only [one, hc, if_true, Option.some.injEq, Prod.mk.injEq] at e
      simp [one, hc, ← e.1]
    · simp [one, hc] at e

theorem cuts_exactly : (exactly xs).Cuts := by
  intro cs a z b e
  obtain ⟨rfl, -⟩ := Scan.exactly_eq_some_iff.1 e
  exact Scan.exactly_eq_some_iff.2 ⟨rfl, rfl⟩

theorem Cuts.seq (hm : m.Cuts) (hn : n.Cuts) (hsplit : n.Splits) : (seq m n).Cuts := by
  intro cs a z b e
  obtain ⟨x, y, w, hx, hw, rfl⟩ := seq_eq_some e
  have hy : y = (w ++ z) ++ b := by simpa using (hsplit y w (z ++ b) hw).symm
  rw [append_assoc]
  exact seq_of_some (hm cs x (w ++ z) b (hy ▸ hx)) (hn y w z b hw)

theorem Cuts.or (hm : m.Cuts) (hn : n.Cuts) (hlasts : m.Lasts) (hsplit : n.Splits) :
    (or m n).Cuts := by
  intro cs a z b e
  simp only [Recognizer.or] at e ⊢
  cases hcs : m cs with
  | some r =>
    rw [hcs] at e
    cases e
    rw [hm cs a z b hcs]
  | none =>
    rw [hcs] at e
    obtain rfl : cs = (a ++ z) ++ b := by simpa using (hsplit cs a (z ++ b) e).symm
    rw [hlasts.none hcs]
    exact hn _ a z b e

theorem Cuts.opt (hm : m.Cuts) (hlasts : m.Lasts) : (opt m).Cuts := by
  intro cs a z b e
  simp only [Recognizer.opt, Option.some.injEq] at e ⊢
  cases hcs : m cs with
  | some r =>
    rw [hcs] at e
    obtain rfl : r = (a, z ++ b) := e
    rw [hm cs a z b hcs]
    rfl
  | none =>
    rw [hcs] at e
    cases e
    rw [nil_append, hlasts.none hcs]
    rfl

theorem seq_or (hk : k.Total) : seq (or m n) k = or (seq m k) (seq n k) := by
  funext cs
  cases hm : m cs with
  | none => simp [seq, or, hm]
  | some r =>
    obtain ⟨r', hr'⟩ := Option.isSome_iff_exists.1 (hk r.2)
    simp [seq, or, hm, hr']

theorem seq_before : seq (before m p) (opt (one p)) = seq m (one p) := by
  funext cs
  rcases hm : m cs with _ | ⟨a, _ | ⟨c, b⟩⟩
  · simp [seq, before, hm]
  · simp [seq, before, hm, one]
  · by_cases hc : p c <;> simp [seq, before, opt, one, hm, hc]

/-- All characters of a match are in a class. -/
def MadeOf (m : Recognizer) (q : Char → Prop) : Prop :=
  ∀ cs a b, m cs = some (a, b) → ∀ c ∈ a, q c

variable {q : Char → Prop}

theorem madeOf_one (h : ∀ c, p c → q c) : (one p).MadeOf q := by
  intro cs a b e c hc
  cases cs with
  | nil => cases e
  | cons d cs =>
    by_cases hd : p d
    · simp only [one, hd, if_true, Option.some.injEq, Prod.mk.injEq] at e
      rw [← e.1, mem_singleton] at hc
      exact hc ▸ h d hd
    · simp [one, hd] at e

theorem madeOf_run (h : ∀ c, p c → q c) : (run p).MadeOf q := by
  intro cs a b e c hc
  cases e
  exact h c (mem_takeWhile_imp hc)

theorem madeOf_exactly {xs : List Char} (h : ∀ c ∈ xs, q c) : (exactly xs).MadeOf q := by
  intro cs a b e c hc
  obtain ⟨rfl, -⟩ := Scan.exactly_eq_some_iff.1 e
  exact h c hc

theorem MadeOf.seq (hm : m.MadeOf q) (hn : n.MadeOf q) : (seq m n).MadeOf q := by
  intro cs a b e c hc
  obtain ⟨x, y, z, hx, hz, rfl⟩ := seq_eq_some e
  rcases mem_append.1 hc with hc | hc
  · exact hm cs x y hx c hc
  · exact hn y z b hz c hc

theorem madeOf_run1 (h : ∀ c, p c → q c) : (run1 p).MadeOf q :=
  run1_eq_seq ▸ (madeOf_one h).seq (madeOf_run h)

theorem MadeOf.or (hm : m.MadeOf q) (hn : n.MadeOf q) : (or m n).MadeOf q := by
  intro cs a b e
  simp only [Recognizer.or] at e
  cases hcs : m cs with
  | none =>
    rw [hcs] at e
    exact hn cs a b e
  | some r =>
    rw [hcs] at e
    exact hm cs a b (hcs.trans e)

theorem MadeOf.opt (hm : m.MadeOf q) : (opt m).MadeOf q := by
  intro cs a b e c hc
  simp only [Recognizer.opt, Option.some.injEq] at e
  cases hcs : m cs with
  | none =>
    rw [hcs] at e
    cases e
    cases hc
  | some r =>
    rw [hcs] at e
    exact hm cs a b (hcs.trans (congrArg some e)) c hc

end Recognizer

namespace Scan
open Recognizer
variable {a : List Char} (texts : List (List Char)) {p : Char → Bool} {cs b : List Char}

theorem cuts_run1 : (run1 p).Cuts :=
  run1_eq_seq ▸ cuts_one.seq cuts_run splits_run

theorem firm_run1 : (run1 p).Firm :=
  run1_eq_seq ▸ closed_one.firm.seq firm_run splits_run

theorem lasts_run1 : (run1 p).Lasts :=
  run1_eq_seq ▸ closed_one.lasts.seq_total total_run

theorem lasts_exponent : exponent.Lasts := by
  have hdigits : (seq (opt (one fun c => c == '+' || c == '-')) digits).Lasts :=
    .seq firm_opt_one lasts_run1 consumes_digits
  exact .seq closed_one.firm hdigits (consumes_one.splits.opt.seq_consumes consumes_digits)

theorem cuts_exponent : exponent.Cuts :=
  cuts_one.seq ((cuts_one.opt closed_one.lasts).seq cuts_run1 consumes_digits.splits)
    (consumes_one.splits.opt.seq consumes_digits.splits)

/-- Digits, a point and more digits, which may be missing. -/
def pointAfter : Recognizer :=
  seq digits (seq (exactly ['.']) (seq (run Char.isDigit) (opt exponent)))

def pointBefore : Recognizer := seq (exactly ['.']) (seq digits (opt exponent))

/-- The four shapes of a float, each with its own suffix. -/
theorem float_eq : float =
    or (seq pointAfter (opt (one isFloatSuffix))) (or (seq pointBefore (opt (one isFloatSuffix)))
      (or (seq (seq digits exponent) (opt (one isFloatSuffix)))
      (seq digits (one isFloatSuffix)))) := by
  simp only [float, seq_or total_opt, seq_before, pointAfter, pointBefore]

theorem splits_suffix : (opt (one p)).Splits := consumes_one.splits.opt

theorem cuts_suffix : (opt (one p)).Cuts := cuts_one.opt closed_one.lasts

theorem consumes_pointBefore : pointBefore.Consumes :=
  (consumes_exactly_cons _ _).seq (consumes_digits.splits.seq consumes_exponent.splits.opt)

theorem cuts_pointAfter : pointAfter.Cuts := by
  have htail : (seq (run Char.isDigit) (opt exponent)).Cuts :=
    cuts_run.seq (cuts_exponent.opt lasts_exponent) consumes_exponent.splits.opt
  have hsplit : (seq (run Char.isDigit) (opt exponent)).Splits :=
    splits_run.seq consumes_exponent.splits.opt
  exact cuts_run1.seq ((cuts_exactly _).seq htail hsplit) ((splits_exactly _).seq hsplit)

theorem lasts_pointAfter : pointAfter.Lasts :=
  .seq firm_run1 ((closed_exactly _).lasts.seq_total (total_run.seq total_opt))
    ((consumes_exactly_cons _ _).seq (splits_run.seq consumes_exponent.splits.opt))

theorem cuts_pointBefore : pointBefore.Cuts :=
  (cuts_exactly _).seq
    (cuts_run1.seq (cuts_exponent.opt lasts_exponent) consumes_exponent.splits.opt)
    (consumes_digits.splits.seq consumes_exponent.splits.opt)

theorem lasts_pointBefore : pointBefore.Lasts :=
  .seq (closed_exactly _).firm (lasts_run1.seq_total total_opt)
    (consumes_digits.seq consumes_exponent.splits.opt)

theorem lasts_digits_exponent : (seq digits exponent).Lasts :=
  .seq firm_run1 lasts_exponent consumes_exponent

theorem lasts_float : float.Lasts := by
  rw [float_eq]
  exact (lasts_pointAfter.seq_total total_opt).or ((lasts_pointBefore.seq_total total_opt).or
    ((lasts_digits_exponent.seq_total total_opt).or (.seq firm_run1 closed_one.lasts consumes_one)))

theorem cuts_float : float.Cuts := by
  rw [float_eq]
  have hshort : (seq digits (one isFloatSuffix)).Cuts := cuts_run1.seq cuts_one consumes_one.splits
  have hsplit₁ : (seq digits (one isFloatSuffix)).Consumes :=
    consumes_digits.seq consumes_one.splits
  have hexponent : (seq (seq digits exponent) (opt (one isFloatSuffix))).Cuts :=
    (cuts_run1.seq cuts_exponent consumes_exponent.splits).seq cuts_suffix splits_suffix
  have hsplit₂ : (seq (seq digits exponent) (opt (one isFloatSuffix))).Consumes :=
    (consumes_digits.seq consumes_exponent.splits).seq splits_suffix
  have hsplit₃ : (seq pointBefore (opt (one isFloatSuffix))).Consumes :=
    consumes_pointBefore.seq splits_suffix
  exact (cuts_pointAfter.seq cuts_suffix splits_suffix).or
    ((cuts_pointBefore.seq cuts_suffix splits_suffix).or
      (hexponent.or hshort (lasts_digits_exponent.seq_total total_opt) hsplit₁.splits)
      (lasts_pointBefore.seq_total total_opt) (hsplit₂.or hsplit₁).splits)
    (lasts_pointAfter.seq_total total_opt) (hsplit₃.or (hsplit₂.or hsplit₁)).splits

theorem hexMark_eq : or (exactly ['0', 'x']) (exactly ['0', 'X']) =
    seq (exactly ['0']) (one fun c => c == 'x' || c == 'X') := by
  funext cs
  rcases cs with _ | ⟨c, cs⟩
  · rfl
  by_cases hc : '0' = c
  · subst hc
    rcases cs with _ | ⟨d, cs⟩
    · rfl
    by_cases hx : 'x' = d
    · subst hx
      rfl
    by_cases hX : 'X' = d
    · subst hX
      rfl
    simp [Recognizer.or, seq, exactly, one, hx, hX, Ne.symm hx, Ne.symm hX]
  · simp [Recognizer.or, seq, exactly, hc]

theorem closed_hexMark : (or (exactly ['0', 'x']) (exactly ['0', 'X'])).Closed :=
  hexMark_eq ▸ (closed_exactly _).seq closed_one

theorem cuts_hexMark : (or (exactly ['0', 'x']) (exactly ['0', 'X'])).Cuts :=
  hexMark_eq ▸ (cuts_exactly _).seq cuts_one consumes_one.splits

theorem lasts_int : int.Lasts :=
  ((Lasts.seq closed_hexMark.firm lasts_run1 consumes_run1).or lasts_run1).seq_total total_opt

theorem cuts_int : int.Cuts :=
  ((cuts_hexMark.seq cuts_run1 consumes_run1.splits).or cuts_run1
    (.seq closed_hexMark.firm lasts_run1 consumes_run1) consumes_digits.splits).seq
    cuts_suffix splits_suffix

theorem lasts_quoted : quoted.Lasts := by
  have hend : (seq (run fun c => c != '"' && c != '\n') (exactly ['"'])).Lasts :=
    .seq firm_run (closed_exactly _).lasts (consumes_exactly_cons _ _)
  exact .seq (closed_exactly _).firm hend (splits_run.seq_consumes (consumes_exactly_cons _ _))

theorem cuts_quoted : quoted.Cuts :=
  (cuts_exactly _).seq (cuts_run.seq (cuts_exactly _) (splits_exactly _))
    (splits_run.seq (splits_exactly _))

theorem lasts_word : word.Lasts := closed_one.lasts.seq_total total_run

theorem cuts_word : word.Cuts := cuts_one.seq cuts_run splits_run

theorem lasts_anyOf : (anyOf texts).Lasts := by
  induction texts with
  | nil => exact fun _ _ hsome => hsome
  | cons t more ih =>
    cases t with
    | nil => exact ih
    | cons x xs => exact (closed_exactly (x :: xs)).lasts.or ih

theorem cuts_anyOf : (anyOf texts).Cuts := by
  induction texts with
  | nil =>
    intro cs a z b e
    cases e
  | cons t more ih =>
    cases t with
    | nil => exact ih
    | cons x xs =>
      exact (cuts_exactly (x :: xs)).or ih (closed_exactly _).lasts (consumes_anyOf more).splits

theorem lasts_operator : operator.Lasts := (lasts_anyOf _).or closed_one.lasts

theorem cuts_operator : operator.Cuts :=
  (cuts_anyOf _).or cuts_one (lasts_anyOf _) consumes_one.splits

theorem delimiter_text (d : Delimiter) : delimiter d.text.toList = some (d, []) := by
  cases d <;> rfl

theorem delimiter_eq_some {d : Delimiter} (h : delimiter cs = some (d, b)) :
    cs = d.text.toList ++ b := by
  unfold delimiter at h
  split at h <;> cases h <;> rfl

theorem quoted_eq_some (h : quoted cs = some (a, b)) :
    (Token.quoted (unquote a)).text.toList = a := by
  obtain ⟨x, y, z, hx, hyz, rfl⟩ := seq_eq_some h
  obtain ⟨u, v, w, hu, hv, rfl⟩ := seq_eq_some hyz
  obtain ⟨rfl, rfl⟩ := exactly_eq_some_iff.1 hx
  obtain ⟨rfl, rfl⟩ := exactly_eq_some_iff.1 hv
  simp [Token.text, unquote]

/-- The text of a token stands at the front, and comes to the same token without what follows. -/
theorem token_whole {t : Token} (h : token cs = some (t, b)) :
    cs = t.text.toList ++ b ∧ token t.text.toList = some (t, []) := by
  have hnone : ∀ {m : Recognizer} {a : List Char}, m.Lasts → m cs = none → cs = a ++ b →
      m a = none := fun hm e hcs => hm.none (hcs ▸ e)
  simp only [token] at h
  split at h
  case h_1 a rest e =>
    cases h
    rw [quoted_eq_some e]
    exact ⟨(consumes_quoted _ _ _ e).1.symm, by simp [token, cuts_quoted.whole e]⟩
  case h_2 hq =>
  split at h
  case h_1 a rest e =>
    cases h
    have hcs := (consumes_float _ _ _ e).1.symm
    exact ⟨by simpa [Token.text], by
      simp [Token.text, token, hnone lasts_quoted hq hcs, cuts_float.whole e]⟩
  case h_2 hf =>
  split at h
  case h_1 a rest e =>
    cases h
    have hcs := (consumes_int _ _ _ e).1.symm
    exact ⟨by simpa [Token.text], by
      simp [Token.text, token, hnone lasts_quoted hq hcs, hnone lasts_float hf hcs,
        cuts_int.whole e]⟩
  case h_2 hi =>
  split at h
  case h_1 a rest e =>
    cases h
    have hcs := (consumes_word _ _ _ e).1.symm
    exact ⟨by simpa [Token.text], by
      simp [Token.text, token, hnone lasts_quoted hq hcs, hnone lasts_float hf hcs,
        hnone lasts_int hi hcs, cuts_word.whole e]⟩
  case h_2 hw =>
  split at h
  case h_1 a rest e =>
    cases h
    have hcs := (consumes_operator _ _ _ e).1.symm
    exact ⟨by simpa [Token.text], by
      simp [Token.text, token, hnone lasts_quoted hq hcs, hnone lasts_float hf hcs,
        hnone lasts_int hi hcs, hnone lasts_word hw hcs, cuts_operator.whole e]⟩
  case h_2 ho =>
  split at h
  case h_1 d rest e =>
    cases h
    have hcs := delimiter_eq_some e
    exact ⟨hcs, by
      simp [Token.text, token, hnone lasts_quoted hq hcs, hnone lasts_float hf hcs,
        hnone lasts_int hi hcs, hnone lasts_word hw hcs, hnone lasts_operator ho hcs,
        delimiter_text d]⟩
  case h_2 => cases h

end Scan
end ShaderDialect
