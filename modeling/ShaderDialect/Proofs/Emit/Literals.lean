import ShaderDialect.Proofs.Expression.Intrinsics
import ShaderDialect.Proofs.Token.Printing

/-! Literals of floating-point numbers on the targets. A literal stays one where a target keeps its
text. Without its suffix it does so only if it has a point or an exponent. -/
namespace ShaderDialect
open List

namespace Recognizer

variable {m n k : Recognizer}

theorem or_assoc : or (or m n) k = or m (or n k) := by
  funext cs
  simp only [or]
  cases m cs <;> rfl

end Recognizer

namespace Scan
open Recognizer
variable {c : Char} {cs a b body : List Char}

/-- Digits with a point or an exponent. -/
def decimal : Recognizer := or pointAfter (or pointBefore (seq digits exponent))

/-- A float is a decimal, which may have a suffix, or digits that have one. -/
theorem float_eq_or : float =
    or (seq decimal (opt (one isFloatSuffix))) (seq digits (one isFloatSuffix)) := by
  simp only [float_eq, decimal, seq_or total_opt, Recognizer.or_assoc]

theorem cuts_decimal : decimal.Cuts := by
  have hexponent : (seq digits exponent).Cuts :=
    cuts_run1.seq cuts_exponent consumes_exponent.splits
  have hsplits : (seq digits exponent).Splits :=
    (consumes_digits.seq consumes_exponent.splits).splits
  have hbefore : (or pointBefore (seq digits exponent)).Consumes :=
    consumes_pointBefore.or (consumes_digits.seq consumes_exponent.splits)
  exact cuts_pointAfter.or (cuts_pointBefore.or hexponent lasts_pointBefore hsplits)
    lasts_pointAfter hbefore.splits

/-- A class that digits, points, signs and exponent marks are in. -/
theorem madeOf_decimal {p : Char → Prop} (hdigit : ∀ c : Char, c.isDigit → p c)
    (hother : ∀ c ∈ ['.', 'e', 'E', '+', '-'], p c) : decimal.MadeOf p := by
  have hdigits : digits.MadeOf p := madeOf_run1 hdigit
  have hpoint : (exactly ['.']).MadeOf p := madeOf_exactly (by simp [hother])
  have hmark : (one fun c => c == 'e' || c == 'E').MadeOf p := by
    refine madeOf_one fun c hc => hother c ?_
    simp only [Bool.or_eq_true, beq_iff_eq] at hc
    rcases hc with rfl | rfl <;> simp
  have hsign : (one fun c => c == '+' || c == '-').MadeOf p := by
    refine madeOf_one fun c hc => hother c ?_
    simp only [Bool.or_eq_true, beq_iff_eq] at hc
    rcases hc with rfl | rfl <;> simp
  have hexponent : exponent.MadeOf p := hmark.seq (hsign.opt.seq hdigits)
  have hafter : pointAfter.MadeOf p :=
    hdigits.seq (hpoint.seq ((madeOf_run hdigit).seq hexponent.opt))
  exact hafter.or ((hpoint.seq (hdigits.seq hexponent.opt)).or (hdigits.seq hexponent))

theorem not_isFloatSuffix_of_isDigit (h : c.isDigit) : isFloatSuffix c = false := by
  by_contra hc
  rw [Bool.not_eq_false, isFloatSuffix] at hc
  simp only [Bool.or_eq_true, beq_iff_eq] at hc
  rcases hc with ((rfl | rfl) | rfl) | rfl <;> revert h <;> decide

/-- The suffix of a literal is no part of its number. -/
theorem madeOf_decimal_unsuffixed : decimal.MadeOf fun c => isFloatSuffix c = false :=
  madeOf_decimal (fun _ => not_isFloatSuffix_of_isDigit) (by simp [isFloatSuffix])

inductive FloatShape : List Char → Prop
  | decimal {body : List Char} {suffix : Option Char} : decimal body = some (body, []) →
      (∀ c ∈ suffix, isFloatSuffix c) → FloatShape (body ++ suffix.toList)
  | bare {body : List Char} {suffix : Char} : digits body = some (body, []) →
      isFloatSuffix suffix → FloatShape (body ++ [suffix])

theorem one_eq_some {p : Char → Bool} (h : one p cs = some (a, b)) :
    ∃ c, p c ∧ a = [c] ∧ cs = c :: b := by
  cases cs with
  | nil => cases h
  | cons c cs =>
    by_cases hc : p c
    · simp only [one, hc, if_true, Option.some.injEq, Prod.mk.injEq] at h
      exact ⟨c, hc, h.1.symm, by rw [h.2]⟩
    · simp [one, hc] at h

theorem floatShape_of_float (h : float cs = some (a, b)) : FloatShape a := by
  rw [float_eq_or] at h
  simp only [Recognizer.or] at h
  split at h
  · obtain ⟨x, y, z, hx, hz, rfl⟩ := seq_eq_some h
    obtain ⟨c, hc, rfl, -⟩ := one_eq_some hz
    exact .bare (cuts_run1.whole hx) hc
  · next r hr =>
    cases h
    obtain ⟨x, y, z, hx, hz, rfl⟩ := seq_eq_some hr
    simp only [Recognizer.opt, Option.some.injEq] at hz
    cases hsuffix : one isFloatSuffix y with
    | none =>
      rw [hsuffix] at hz
      cases hz
      exact @FloatShape.decimal x none (cuts_decimal.whole hx) (by simp)
    | some r =>
      rw [hsuffix] at hz
      obtain ⟨c, hc, rfl, -⟩ := one_eq_some (hsuffix.trans (congrArg some hz))
      exact @FloatShape.decimal x (some c) (cuts_decimal.whole hx) (by simpa using hc)

theorem float_of_decimal (h : decimal body = some (body, [])) : float body = some (body, []) := by
  have hseq : seq decimal (opt (one isFloatSuffix)) body = some (body ++ [], []) :=
    seq_of_some h rfl
  rw [append_nil] at hseq
  rw [float_eq_or]
  simp only [Recognizer.or, hseq]

theorem isDigit_of_digits (h : digits cs = some (a, b)) : ∀ c ∈ a, c.isDigit :=
  madeOf_run1 (q := fun c => c.isDigit = true) (fun _ hc => hc) cs a b h

theorem float_of_digits (h : digits body = some (body, [])) : float body = none := by
  have hpoint : exactly ['.'] body = none := by
    cases hp : exactly ['.'] body with
    | none => rfl
    | some r =>
      obtain ⟨-, hbody⟩ := exactly_eq_some_iff.1 hp
      have hdigit := isDigit_of_digits h '.' (by rw [hbody]; exact mem_cons_self)
      cases hdigit
  simp [float, seq, Recognizer.or, before, h, hpoint, exactly, exponent, one]

theorem int_of_digits (h : digits body = some (body, [])) : int body = some (body, []) := by
  have hmark : or (exactly ['0', 'x']) (exactly ['0', 'X']) body = none := by
    cases hm : or (exactly ['0', 'x']) (exactly ['0', 'X']) body with
    | none => rfl
    | some r =>
      rw [hexMark_eq] at hm
      obtain ⟨x, y, z, hx, hz, hr⟩ := seq_eq_some (a := r.1) (b := r.2) hm
      obtain ⟨c, hc, rfl, rfl⟩ := one_eq_some hz
      obtain ⟨-, hbody⟩ := exactly_eq_some_iff.1 hx
      have hdigit := isDigit_of_digits h c (by simp [hbody])
      simp only [Bool.or_eq_true, beq_iff_eq] at hc
      rcases hc with rfl | rfl <;> cases hdigit
  have hbody :
      or (seq (or (exactly ['0', 'x']) (exactly ['0', 'X'])) (run1 isHexDigit)) digits body =
      some (body, []) := by
    have hhex :
        seq (or (exactly ['0', 'x']) (exactly ['0', 'X'])) (run1 isHexDigit) body = none := by
      rw [seq, hmark]
    rw [Recognizer.or, hhex, h]
  have hint : int body = some (body ++ [], []) := seq_of_some hbody rfl
  rw [hint, append_nil]

theorem digits_of_isDigit (hne : body ≠ []) (h : ∀ c ∈ body, c.isDigit) :
    digits body = some (body, []) := by
  cases body with
  | nil => exact absurd rfl hne
  | cons c body =>
    obtain ⟨hc, hbody⟩ := forall_mem_cons.1 h
    simp [digits, run1, hc, takeWhile_eq_self_iff.2 hbody, dropWhile_eq_nil_iff.2 hbody]

theorem exists_not_isDigit (h : decimal body = some (body, [])) : ¬ ∀ c ∈ body, c.isDigit := by
  intro hall
  have hfloat := float_of_decimal h
  have hne := (consumes_float _ _ _ hfloat).2
  rw [float_of_digits (digits_of_isDigit hne hall)] at hfloat
  cases hfloat

theorem float_of_shown {text : String} (h : Shown (.float text)) :
    float text.toList = some (text.toList, []) := by
  obtain ⟨c, cs, htext, -, htoken⟩ := h
  rw [← htext] at htoken
  change token text.toList = _ at htoken
  generalize hchars : text.toList = chars at htoken ⊢
  simp only [token] at htoken
  split at htoken
  · cases htoken
  split at htoken
  · next a rest ha =>
    obtain ⟨ht, rfl⟩ := Prod.mk.inj (Option.some.inj htoken)
    rw [ha, ← hchars, ← Token.float.inj ht, String.toList_ofList]
  split at htoken
  · cases htoken
  split at htoken
  · cases htoken
  split at htoken
  · cases htoken
  split at htoken <;> cases htoken

theorem shown_of_decimal (hblank : ¬ Text.isBlank c)
    (h : decimal (c :: body) = some (c :: body, [])) :
    Shown (.float (String.ofList (c :: body))) := by
  have hquote : c ≠ '"' := by
    refine madeOf_decimal (p := (· ≠ '"')) ?_ (by simp) _ _ _ h c mem_cons_self
    rintro d hd rfl
    cases hd
  refine ⟨c, body, by simp [Token.text], hblank, ?_⟩
  simp [token, quoted_of_ne hquote, float_of_decimal h]

theorem shown_of_digits (hblank : ¬ Text.isBlank c)
    (h : digits (c :: body) = some (c :: body, [])) : Shown (.int (String.ofList (c :: body))) := by
  have hquote : c ≠ '"' := by
    rintro rfl
    cases isDigit_of_digits h '"' mem_cons_self
  refine ⟨c, body, by simp [Token.text], hblank, ?_⟩
  simp [token, quoted_of_ne hquote, float_of_digits h, int_of_digits h]

theorem tokenize_of_shown {t : Token} (h : Shown t) :
    (tokenize t.text).map (List.map Lexeme.token) = .ok [t] := by
  have happend : tokens? (t.text.toList ++ []) = (tokens? []).map (t :: ·) :=
    tokens?_text_append h (by simp)
  rw [append_nil, tokens?_nil] at happend
  exact tokenize_of_tokens? happend

end Scan

namespace Token
open Scan
variable {body : List Char} {text : String}

/-- The digits, point and exponent of a literal: all of it but a suffix. -/
def unsuffixed (text : String) : List Char := text.toList.rdropWhile isFloatSuffix

/-- Digits and the suffix of half precision, without a point or an exponent. -/
def isBareHalf (text : String) : Bool :=
  text.toList.dropLast.all Char.isDigit &&
    (text.toList.getLast? == some 'h' || text.toList.getLast? == some 'H')

theorem rdropWhile_append_suffix {p : Char → Bool} {suffix : List Char}
    (hbody : ∀ c ∈ body, p c = false) (hsuffix : ∀ c ∈ suffix, p c) :
    (body ++ suffix).rdropWhile p = body := by
  have hrest : body.rdropWhile p = body := by
    rw [rdropWhile_eq_self_iff]
    intro hne
    simp [hbody _ (getLast_mem hne)]
  rw [List.rdropWhile, reverse_append, dropWhile_append_of_pos (by simpa using hsuffix)]
  exact hrest

/-- A number with an optional suffix, taken apart. -/
theorem unsuffixed_eq {suffix : Option Char} (htext : text.toList = body ++ suffix.toList)
    (hbody : ∀ c ∈ body, isFloatSuffix c = false) (hsuffix : ∀ c ∈ suffix, isFloatSuffix c) :
    unsuffixed text = body := by
  rw [unsuffixed, htext]
  exact rdropWhile_append_suffix hbody (by simpa using hsuffix)

/-- The suffix is dropped if it asks for half precision, and kept otherwise. -/
theorem floatLiteral_eq {suffix : Option Char} (htext : text.toList = body ++ suffix.toList)
    (hbody : ∀ c ∈ body, isFloatSuffix c = false) :
    Glsl.floatLiteral text =
      if suffix = some 'h' ∨ suffix = some 'H' then String.ofList body else text := by
  let half : Char → Bool := fun c => c = 'h' || c = 'H'
  have hnone : ∀ c ∈ body, half c = false := by
    intro c hc
    have := hbody c hc
    simp only [isFloatSuffix, Bool.or_eq_false_iff, beq_eq_false_iff_ne] at this
    simp [half, this]
  change String.ofList (text.toList.rdropWhile half) = _
  rw [htext]
  split
  · next h =>
    congr 1
    refine rdropWhile_append_suffix hnone ?_
    rcases h with rfl | rfl <;> simp [half]
  · next h =>
    have hall : ∀ c ∈ body ++ suffix.toList, half c = false := by
      intro c hc
      rcases mem_append.1 hc with hc | hc
      · exact hnone c hc
      · obtain rfl : suffix = some c := by simpa using hc
        simp only [Option.some.injEq, not_or] at h
        simp [half, h]
    have hkept : (body ++ suffix.toList ++ []).rdropWhile half = body ++ suffix.toList :=
      rdropWhile_append_suffix hall (by simp)
    rw [append_nil] at hkept
    rw [hkept, ← htext, String.ofList_toList]

theorem isBareHalf_iff {suffix : Option Char} (htext : text.toList = body ++ suffix.toList)
    (hbody : ∀ c ∈ body, isFloatSuffix c = false) :
    isBareHalf text ↔ (∀ c ∈ body, c.isDigit) ∧ (suffix = some 'h' ∨ suffix = some 'H') := by
  cases suffix with
  | some c => simp [isBareHalf, htext]
  | none =>
    simp only [Option.toList_none, append_nil] at htext
    simp only [isBareHalf, htext, reduceCtorEq, or_self, and_false, iff_false]
    intro h
    simp only [Bool.and_eq_true, Bool.or_eq_true, beq_iff_eq] at h
    rcases h.2 with hlast | hlast
    · cases hbody _ (mem_of_getLast? hlast)
    · cases hbody _ (mem_of_getLast? hlast)

/-- A literal comes to a literal again, which is an integer if only its suffix made it a float. -/
theorem shown_floatLiteral (h : Shown (.float text)) :
    if isBareHalf text then
      Shown (.int (Glsl.floatLiteral text)) ∧
        Glsl.floatLiteral text = String.ofList (unsuffixed text)
    else Shown (.float (Glsl.floatLiteral text)) ∧
      unsuffixed (Glsl.floatLiteral text) = unsuffixed text := by
  obtain ⟨c, cs, htext, hblank, -⟩ := id h
  have hshape := floatShape_of_float (float_of_shown h)
  generalize hchars : text.toList = chars at hshape
  have hfirst : ∀ body suffix, text.toList = body ++ suffix → body ≠ [] → ∃ ds, body = c :: ds := by
    intro body suffix hsplit hne
    obtain ⟨d, ds, rfl⟩ := exists_cons_of_ne_nil hne
    exact ⟨ds, by rw [(List.cons.inj (hsplit.symm.trans htext)).1]⟩
  cases hshape with
  | @decimal body suffix hbody hsuffix =>
    have hnone := madeOf_decimal_unsuffixed _ _ _ hbody
    have hbare : ¬ isBareHalf text := by
      rw [isBareHalf_iff hchars hnone]
      exact fun hb => exists_not_isDigit hbody hb.1
    rw [if_neg hbare, floatLiteral_eq hchars hnone, unsuffixed_eq hchars hnone hsuffix]
    split
    · obtain ⟨ds, rfl⟩ := hfirst body _ hchars (consumes_float _ _ _ (float_of_decimal hbody)).2
      refine ⟨shown_of_decimal hblank hbody, ?_⟩
      exact @unsuffixed_eq _ _ none (by simp) hnone (by simp)
    · exact ⟨h, unsuffixed_eq hchars hnone hsuffix⟩
  | @bare body suffix hbody hsuffix =>
    have hdigit := isDigit_of_digits hbody
    have hnone : ∀ c ∈ body, isFloatSuffix c = false := fun c hc =>
      not_isFloatSuffix_of_isDigit (hdigit c hc)
    have hchars' : text.toList = body ++ (some suffix).toList := hchars
    have hunsuffixed : unsuffixed text = body :=
      unsuffixed_eq hchars' hnone (by simpa using hsuffix)
    have hbare := isBareHalf_iff hchars' hnone
    rw [floatLiteral_eq hchars' hnone, hunsuffixed]
    by_cases hhalf : some suffix = some 'h' ∨ some suffix = some 'H'
    · obtain ⟨ds, rfl⟩ := hfirst body _ hchars (consumes_digits _ _ _ hbody).2
      rw [if_pos (hbare.2 ⟨hdigit, hhalf⟩), if_pos hhalf]
      exact ⟨shown_of_digits hblank hbody, rfl⟩
    · rw [if_neg fun hb => hhalf (hbare.1 hb).2, if_neg hhalf]
      exact ⟨h, hunsuffixed⟩

end Token

/-- The literal of a float is written as a float with the same digits, point and exponent, on every
target and in every case but one: digits that have only the suffix of half precision are written
as an integer in GLSL. -/
theorem Target.floatLiteral_isFloat_iff (target : Target) (option : Bool) {source text : String}
    {ls : List Lexeme} (h : tokenize source = .ok ls) (htext : .float text ∈ ls.map Lexeme.token) :
    let written := tokenize ((target.language option).floatLiteral text)
    ((∃ text', written.map (List.map Lexeme.token) = .ok [.float text'] ∧
        Token.unsuffixed text' = Token.unsuffixed text) ↔
      ¬ (target = .vulkan ∧ Token.isBareHalf text)) ∧
    (target = .vulkan → Token.isBareHalf text →
      written.map (List.map Lexeme.token) =
        .ok [.int (String.ofList (Token.unsuffixed text))]) := by
  intro written
  obtain ⟨l, hl, htoken⟩ := mem_map.1 htext
  have hscanned : Scan.Scanned (.float text) := htoken ▸ Scan.lexemes_scanned h l hl
  have hshown : Scan.Shown (.float text) := hscanned.shown rfl
  have hwritten : ∀ t, Scan.Shown t → (target.language option).floatLiteral text = t.text →
      written.map (List.map Lexeme.token) = .ok [t] := by
    intro t ht he
    simp only [written, he]
    exact Scan.tokenize_of_shown ht
  by_cases hvulkan : target = .vulkan
  · subst hvulkan
    have hcases := Token.shown_floatLiteral hshown
    by_cases hbare : Token.isBareHalf text
    · rw [if_pos hbare] at hcases
      have hint := hwritten _ hcases.1 rfl
      simp [hint, hbare, hcases.2]
    · rw [if_neg hbare] at hcases
      have hfloat := hwritten _ hcases.1 rfl
      simp [hfloat, hbare, hcases.2]
  · have hkept : (target.language option).floatLiteral text = text := by
      cases target with
      | vulkan => exact absurd rfl hvulkan
      | direct3d12 | metal => rfl
    have hfloat := hwritten _ hshown hkept
    simp [hfloat, hvulkan]

/-- Of two halves the one without a point becomes an integer. -/
theorem Target.floatLiteral_isFloat_iff_halves :
    (tokenize "1h 1.5h").map (List.map Lexeme.token) = .ok [.float "1h", .float "1.5h"] ∧
    (tokenize ((Target.vulkan.language true).floatLiteral "1h")).map (List.map Lexeme.token) =
      .ok [.int "1"] ∧
    (∃ text, (tokenize ((Target.vulkan.language true).floatLiteral "1.5h")).map
        (List.map Lexeme.token) = .ok [.float text] ∧
      Token.unsuffixed text = "1.5".toList) := by
  have hscan : tokenize "1h 1.5h" = .ok [⟨.float "1h", 1⟩, ⟨.float "1.5h", 1⟩] := by decide +kernel
  refine ⟨by rw [hscan]; rfl, ?_, ?_⟩
  · have hwhole := @floatLiteral_isFloat_iff .vulkan true _ "1h" _ hscan (by decide)
    exact hwhole.2 rfl (by decide)
  · have hpoint := @floatLiteral_isFloat_iff .vulkan true _ "1.5h" _ hscan (by decide)
    exact hpoint.1.2 (by decide)

end ShaderDialect
