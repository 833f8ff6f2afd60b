import ShaderDialect.Token.Scan

/-! Texts of expressions that are joined into a longer one. A break is a character that no token
goes on with, so that a text which a break follows keeps its tokens. -/
namespace ShaderDialect
open List

namespace Scan

/-- Characters that end every token before them. -/
def breaks : List Char := [' ', '\t', '\n', '(', ')', '[', ']', ',', ';']

@[simp] theorem mem_breaks {c : Char} : c ∈ breaks ↔
    c = ' ' ∨ c = '\t' ∨ c = '\n' ∨ c = '(' ∨ c = ')' ∨ c = '[' ∨ c = ']' ∨ c = ',' ∨ c = ';' := by
  simp [breaks]

/-- Characters that end every number before them. -/
def numberEnds : List Char := '&' :: '|' :: '!' :: breaks

/-- Characters that end every word before them. -/
def wordEnds : List Char := '.' :: numberEnds

end Scan

namespace Recognizer
open Scan
variable {xs : List Char}

/-- A recognizer whose answer does not depend on what stands from one of the given characters on. -/
def Steady (m : Recognizer) (stops : List Char) : Prop :=
  ∀ cs, ∀ c ∈ stops, ∀ rest,
    m (cs ++ c :: rest) = (m cs).map fun r => (r.1, r.2 ++ c :: rest)

variable {m n : Recognizer} {p : Char → Bool} {stops : List Char}

theorem not_of_stop (hp : stops.any p = false) {c : Char} (hc : c ∈ stops) : p c = false := by
  simpa using any_eq_false.1 hp c hc

theorem steady_run (hp : stops.any p = false) : (run p).Steady stops := by
  intro cs c hc rest
  induction cs with
  | nil => simp [run, not_of_stop hp hc]
  | cons d cs ih =>
    by_cases hd : p d
    · simpa [run, hd] using ih
    · simp [run, hd]

theorem steady_one (hp : stops.any p = false) : (one p).Steady stops := by
  intro cs c hc rest
  cases cs with
  | nil => simp [one, not_of_stop hp hc]
  | cons d cs => by_cases hd : p d <;> simp [one, hd]

theorem run1_eq_seq : run1 p = seq (one p) (run p) := by
  funext cs
  cases cs with
  | nil => rfl
  | cons d cs => by_cases hd : p d <;> simp [run1, seq, one, run, hd]

theorem steady_exactly (hxs : xs.any stops.contains = false) : (exactly xs).Steady stops := by
  intro cs c hc rest
  induction xs generalizing cs with
  | nil => simp [exactly]
  | cons x xs ih =>
    obtain ⟨hx, hxs⟩ : stops.contains x = false ∧ xs.any stops.contains = false := by
      simpa only [any_cons, Bool.or_eq_false_iff] using hxs
    have ih := ih hxs
    cases cs with
    | nil =>
      have hne : x ≠ c := by
        rintro rfl
        rw [contains_iff_mem.2 hc] at hx
        cases hx
      simp [exactly, hne]
    | cons d cs =>
      by_cases hd : x = d
      · simp [exactly, hd, ih, Function.comp_def]
      · simp [exactly, hd]

theorem Steady.seq (hm : m.Steady stops) (hn : n.Steady stops) : (seq m n).Steady stops := by
  intro cs c hc rest
  simp only [Recognizer.seq, hm cs c hc rest]
  cases m cs with
  | none => rfl
  | some r =>
    simp only [Option.map_some, hn r.2 c hc rest]
    cases n r.2 <;> rfl

theorem Steady.or (hm : m.Steady stops) (hn : n.Steady stops) : (or m n).Steady stops := by
  intro cs c hc rest
  simp only [Recognizer.or, hm cs c hc rest]
  cases m cs with
  | none => exact hn cs c hc rest
  | some r => rfl

theorem Steady.opt (hm : m.Steady stops) : (opt m).Steady stops := by
  intro cs c hc rest
  simp only [Recognizer.opt, hm cs c hc rest]
  cases m cs <;> rfl

theorem Steady.before (hm : m.Steady stops) (hp : stops.any p = false) :
    (before m p).Steady stops := by
  intro cs c hc rest
  simp only [Recognizer.before, hm cs c hc rest]
  cases m cs with
  | none => rfl
  | some r =>
    obtain ⟨a, b⟩ := r
    cases b with
    | nil => simp [not_of_stop hp hc]
    | cons d b => by_cases hd : p d <;> simp [hd]

theorem steady_run1 (hp : stops.any p = false) : (run1 p).Steady stops :=
  run1_eq_seq ▸ (steady_one hp).seq (steady_run hp)

end Recognizer

namespace Scan
open Recognizer
variable {xs : List Char} {d : Char} {cs b a : List Char} {c : Char} {t : Token}

theorem steady_digits : digits.Steady numberEnds := steady_run1 (by decide)

theorem steady_word : word.Steady wordEnds := (steady_one (by decide)).seq (steady_run (by decide))

theorem steady_exponent : exponent.Steady numberEnds :=
  (steady_one (by decide)).seq ((steady_one (by decide)).opt.seq steady_digits)

theorem steady_float : float.Steady numberEnds :=
  ((steady_digits.seq
      ((steady_exactly (by decide)).seq ((steady_run (by decide)).seq steady_exponent.opt))).or
    (((steady_exactly (by decide)).seq (steady_digits.seq steady_exponent.opt)).or
      ((steady_digits.seq steady_exponent).or (steady_digits.before (by decide))))).seq
    (steady_one (by decide)).opt

theorem steady_int : int.Steady wordEnds :=
  ((((steady_exactly (by decide)).or (steady_exactly (by decide))).seq
      (steady_run1 (by decide))).or (steady_run1 (by decide))).seq
    (steady_one (by decide)).opt

theorem steady_anyOf {texts : List (List Char)} {stops : List Char}
    (h : (texts.any fun t => t.any stops.contains) = false) : (anyOf texts).Steady stops := by
  induction texts with
  | nil => intro cs c hc rest; rfl
  | cons t more ih =>
    obtain ⟨ht, hmore⟩ := Bool.or_eq_false_iff.1 h
    cases t with
    | nil => exact ih hmore
    | cons x xs => exact (steady_exactly ht).or (ih hmore)

theorem steady_operator : operator.Steady ('.' :: breaks) :=
  (steady_anyOf (by decide)).or (steady_one (by decide))

def commentStart : Recognizer := or (exactly ['/', '/']) (exactly ['/', '*'])

theorem steady_commentStart : commentStart.Steady wordEnds :=
  (steady_exactly (by decide)).or (steady_exactly (by decide))

theorem delimiter_append {d : Delimiter} (h : delimiter cs = some (d, b)) (hcolon : c ≠ ':')
    (rest : List Char) : delimiter (cs ++ c :: rest) = some (d, b ++ c :: rest) := by
  unfold delimiter at h
  split at h
  case h_10 cs hcs =>
    -- a colon is a delimiter when no second one follows
    have hnext : ∀ tail, cs ++ c :: rest ≠ ':' :: tail := by
      intro tail he
      cases cs with
      | nil => exact hcolon (List.cons.inj he).1
      | cons e cs => exact hcs cs (by rw [(List.cons.inj he).1])
    simp_all [delimiter]
  all_goals simp_all [delimiter]

theorem run_append {p : Char → Bool} (h : run p cs = some (a, d :: b)) (rest : List Char) :
    run p (cs ++ rest) = some (a, d :: b ++ rest) := by
  simp only [run, Option.some.injEq, Prod.mk.injEq] at h ⊢
  induction cs generalizing a with
  | nil => simp at h
  | cons e cs ih =>
    by_cases he : p e
    · simp only [takeWhile_cons, dropWhile_cons, he, if_true] at h
      simpa [he, ← h.1] using ih ⟨rfl, h.2⟩
    · simp_all

theorem exactly_eq_some_iff : exactly xs cs = some (a, b) ↔ a = xs ∧ cs = xs ++ b := by
  induction xs generalizing cs a b with
  | nil => simp [exactly, eq_comm]
  | cons x xs ih =>
    cases cs with
    | nil => simp [exactly]
    | cons c cs =>
      by_cases hc : x = c
      · subst hc
        simp only [exactly, if_true, Option.map_eq_some_iff, Prod.exists, Prod.mk.injEq, ih,
          cons_append, List.cons.injEq, true_and]
        constructor
        · rintro ⟨_, _, ⟨rfl, rfl⟩, rfl, rfl⟩
          exact ⟨rfl, rfl⟩
        · rintro ⟨rfl, rfl⟩
          exact ⟨_, _, ⟨rfl, rfl⟩, rfl, rfl⟩
      · simp [exactly, hc, Ne.symm hc]

theorem quoted_append (h : quoted cs = some (a, b)) (rest : List Char) :
    quoted (cs ++ rest) = some (a, b ++ rest) := by
  obtain ⟨x, y, z, hx, hyz, rfl⟩ := seq_eq_some h
  obtain ⟨u, v, w, hu, hv, rfl⟩ := seq_eq_some hyz
  obtain ⟨rfl, rfl⟩ := exactly_eq_some_iff.1 hx
  obtain ⟨rfl, rfl⟩ := exactly_eq_some_iff.1 hv
  have hrest := run_append hu rest
  simp [quoted, seq, exactly, hrest]

theorem token_quote (h : quoted ('"' :: cs) = none) : token ('"' :: cs) = none := by
  simp only [token, h]
  rfl

theorem quoted_of_ne (hc : c ≠ '"') (cs : List Char) : quoted (c :: cs) = none := by
  simp [quoted, seq, exactly, hc.symm]

theorem isDigit_eq_false (h : int (c :: cs) = none) : c.isDigit = false := by
  cases hc : c.isDigit with
  | false => rfl
  | true =>
    have hdigits : digits (c :: cs) =
        some (c :: cs.takeWhile Char.isDigit, cs.dropWhile Char.isDigit) := by
      simp [digits, run1, hc]
    simp only [int, seq, Recognizer.or, hdigits, opt] at h
    grind

theorem float_of_point (h : ∀ c ∈ cs.head?, c.isDigit = false) : float ('.' :: cs) = none := by
  have hdigits : digits cs = none := by
    cases cs with
    | nil => rfl
    | cons c cs => simp [digits, run1, h c rfl]
  have hfirst : digits ('.' :: cs) = none := rfl
  simp [float, seq, Recognizer.or, before, exactly, hfirst, hdigits]

theorem digit_of_point (h : float ('.' :: cs) = none) : ∀ c ∈ cs.head?, c.isDigit = false := by
  intro c hc
  obtain ⟨cs, rfl⟩ : ∃ ds, cs = c :: ds := head?_eq_some_iff.1 hc
  cases hd : c.isDigit with
  | false => rfl
  | true =>
    simp [float, seq, Recognizer.or, exactly, digits, run1, hd, opt] at h

theorem float_of_not_digit (hc : c.isDigit = false) (hpoint : c ≠ '.') (cs : List Char) :
    float (c :: cs) = none := by
  simp [float, seq, Recognizer.or, before, exactly, digits, run1, hc, Ne.symm hpoint]

/-- Where no number starts, none does when a text goes on after its end. -/
theorem float_append (hf : float (c :: cs) = none) (hi : int (c :: cs) = none) (hd : d ∈ wordEnds)
    (rest : List Char) : float (c :: cs ++ d :: rest) = none := by
  rcases mem_cons.1 hd with rfl | hd
  · by_cases hpoint : c = '.'
    · subst hpoint
      refine float_of_point ?_
      cases cs with
      | nil => simp
      | cons e cs => simpa using digit_of_point hf
    · exact float_of_not_digit (isDigit_eq_false hi) hpoint _
  · rw [steady_float _ d hd rest, hf]
    rfl

/-- Characters that end a token before them, by the kind of the token. -/
def ends : Token → List Char
  | .word _ => wordEnds
  | .int _ | .float _ => numberEnds
  | _ => '.' :: breaks

theorem breaks_subset_ends (t : Token) : breaks ⊆ ends t := by
  intro c hc
  cases t <;> simp_all [ends, wordEnds, numberEnds]

theorem ends_subset_wordEnds (t : Token) : ends t ⊆ wordEnds := by
  intro c hc
  cases t <;> simp_all [ends, wordEnds, numberEnds] <;> grind

/-- The token at the front stays what it is when a character follows that ends such a token. -/
theorem token_append (h : token cs = some (t, b)) (hc : c ∈ ends t) (rest : List Char) :
    token (cs ++ c :: rest) = some (t, b ++ c :: rest) := by
  have hword := ends_subset_wordEnds t hc
  cases hq : quoted cs with
  | some r =>
    obtain ⟨a, b'⟩ := r
    have hq' := quoted_append hq (c :: rest)
    simp only [token, hq, Option.some.injEq, Prod.mk.injEq] at h
    simp [token, hq', h]
  | none =>
    have hq' : quoted (cs ++ c :: rest) = none := by
      cases cs with
      | nil => cases h
      | cons d cs =>
        refine quoted_of_ne ?_ _
        rintro rfl
        simp [token_quote hq] at h
    simp only [token, hq, hq'] at h ⊢
    cases hf : float cs with
    | some r =>
      simp only [hf, Option.some.injEq, Prod.mk.injEq] at h
      obtain ⟨rfl, rfl⟩ := h
      simp [steady_float cs c hc rest, hf]
    | none =>
    cases hi : int cs with
    | some r =>
      simp only [hf, hi, Option.some.injEq, Prod.mk.injEq] at h
      obtain ⟨rfl, rfl⟩ := h
      simp [steady_float cs c hc rest, hf, steady_int cs c hword rest, hi]
    | none =>
    have hf' : float (cs ++ c :: rest) = none := by
      cases cs with
      | nil => cases h
      | cons d cs => exact float_append hf hi hword rest
    simp only [hf, hi, hf', steady_int cs c hword rest, steady_word cs c hword rest,
      Option.map_none] at h ⊢
    cases hw : word cs with
    | some r => simp_all
    | none =>
    simp only [hw, Option.map_none] at h ⊢
    cases ho : operator cs with
    | some r =>
      simp only [ho, Option.some.injEq, Prod.mk.injEq] at h
      obtain ⟨rfl, rfl⟩ := h
      simp [steady_operator cs c hc rest, ho]
    | none =>
    cases hd : delimiter cs with
    | some r =>
      simp only [ho, hd, Option.some.injEq, Prod.mk.injEq] at h
      obtain ⟨rfl, rfl⟩ := h
      have hcolon : c ≠ ':' := by
        rintro rfl
        have hmem : ':' ∈ '.' :: breaks := hc
        revert hmem
        decide
      simp [steady_operator cs c hc rest, ho, delimiter_append hd hcolon rest]
    | none => simp [ho, hd] at h

/-- The tokens of a text that is one expression: blanks are dropped, and there are no comments. -/
def tokens? (cs : List Char) : Option (List Token) :=
  if (cs.dropWhile Text.isBlank).isEmpty then some []
  else if (commentStart (cs.dropWhile Text.isBlank)).isSome then none
  else match _ : token (cs.dropWhile Text.isBlank) with
    | some (t, rest) => (tokens? rest).map (t :: ·)
    | none => none
termination_by cs.length
decreasing_by exact Nat.lt_of_lt_of_le (token_length ‹_›) (length_dropWhile_le _ cs)

@[simp] theorem tokens?_nil : tokens? [] = some [] := by
  rw [tokens?]
  rfl

theorem tokens?_dropWhile {ds : List Char}
    (h : cs.dropWhile Text.isBlank = ds.dropWhile Text.isBlank) : tokens? cs = tokens? ds := by
  rw [tokens?.eq_def cs, tokens?.eq_def ds, h]

theorem tokens?_of_shown (hcomment : (commentStart (cs.dropWhile Text.isBlank)).isSome = false)
    (ht : token (cs.dropWhile Text.isBlank) = some (t, b)) :
    tokens? cs = (tokens? b).map (t :: ·) := by
  have hne : (cs.dropWhile Text.isBlank).isEmpty = false := by
    cases h : cs.dropWhile Text.isBlank with
    | nil => rw [h] at ht; cases ht
    | cons d ds => rfl
  rw [tokens?]
  simp only [hne, hcomment, Bool.false_eq_true, if_false]
  split
  · rename_i t' b' heq
    obtain ⟨rfl, rfl⟩ : t = t' ∧ b = b' := by simpa [ht] using heq
    rfl
  · simp_all

theorem tokens?_of_token (hd : ¬ Text.isBlank d)
    (hcomment : (commentStart (d :: cs)).isSome = false) (ht : token (d :: cs) = some (t, b)) :
    tokens? (d :: cs) = (tokens? b).map (t :: ·) := by
  have hshown : (d :: cs).dropWhile Text.isBlank = d :: cs := dropWhile_cons_of_neg hd
  exact tokens?_of_shown (by rwa [hshown]) (by rwa [hshown])

theorem tokens?_eq_singleton
    (h : token cs = some (t, []) ∧ (cs.head?.all fun c => !Text.isBlank c) ∧
      (commentStart cs).isSome = false) : tokens? cs = some [t] := by
  obtain ⟨ht, hblank, hcomment⟩ := h
  cases cs with
  | nil => cases ht
  | cons c cs =>
    rw [tokens?_of_token (by simpa using hblank) hcomment ht, tokens?_nil]
    rfl

theorem tokens?_append {ts : List Token} (h : tokens? cs = some ts) (hc : c ∈ breaks)
    (rest : List Char) : tokens? (cs ++ c :: rest) = (tokens? (c :: rest)).map (ts ++ ·) := by
  fun_induction tokens? cs generalizing ts with
  | case1 cs hblank =>
    have hshown :
        (cs ++ c :: rest).dropWhile Text.isBlank = (c :: rest).dropWhile Text.isBlank := by
      rw [dropWhile_append, if_pos hblank]
    cases h
    simpa using tokens?_dropWhile hshown
  | case2 cs hne hcomment => simp at h
  | case3 cs hne hcomment t b ht ih =>
    obtain ⟨us, hus, rfl⟩ := Option.map_eq_some_iff.1 h
    have hshown : (cs ++ c :: rest).dropWhile Text.isBlank =
        cs.dropWhile Text.isBlank ++ c :: rest := by
      rw [dropWhile_append, if_neg hne]
    have hcomment' : (commentStart (cs.dropWhile Text.isBlank ++ c :: rest)).isSome = false := by
      have hends := ends_subset_wordEnds t (breaks_subset_ends t hc)
      rw [steady_commentStart _ c hends rest, Option.isSome_map]
      simpa using hcomment
    have ht' := token_append ht (breaks_subset_ends t hc) rest
    rw [← hshown] at hcomment' ht'
    rw [tokens?_of_shown hcomment' ht', ih hus, Option.map_map]
    rfl
  | case4 cs hne hcomment ht => simp at h

@[simp] theorem tokens?_blank (cs : List Char) : tokens? (' ' :: cs) = tokens? cs :=
  tokens?_dropWhile rfl

@[simp] theorem tokens?_lparen (cs : List Char) :
    tokens? ('(' :: cs) = (tokens? cs).map (.delim .lparen :: ·) :=
  tokens?_of_token (by decide) rfl rfl

@[simp] theorem tokens?_rparen (cs : List Char) :
    tokens? (')' :: cs) = (tokens? cs).map (.delim .rparen :: ·) :=
  tokens?_of_token (by decide) rfl rfl

@[simp] theorem tokens?_lbracket (cs : List Char) :
    tokens? ('[' :: cs) = (tokens? cs).map (.delim .lbracket :: ·) :=
  tokens?_of_token (by decide) rfl rfl

@[simp] theorem tokens?_rbracket (cs : List Char) :
    tokens? (']' :: cs) = (tokens? cs).map (.delim .rbracket :: ·) :=
  tokens?_of_token (by decide) rfl rfl

@[simp] theorem tokens?_comma (cs : List Char) :
    tokens? (',' :: cs) = (tokens? cs).map (.delim .comma :: ·) :=
  tokens?_of_token (by decide) rfl rfl

end Scan
end ShaderDialect
