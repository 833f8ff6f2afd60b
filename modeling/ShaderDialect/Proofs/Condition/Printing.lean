import ShaderDialect.Condition.Reader
import ShaderDialect.Proofs.Token.Printing

/-! Conditions that are printed with as few parentheses as their operators need, and read again. -/
namespace ShaderDialect
open List

/-- A letter or `_`, and then letters, digits and `_`. -/
def IsIdentifier (name : String) : Prop :=
  ∃ c cs, name.toList = c :: cs ∧ Scan.isWordStart c ∧ ∀ d ∈ cs, Scan.isWordRest d

namespace Condition
variable {name : String} {level : Nat}

/-- Every symbol can be written as a word that is not taken for `defined`. -/
def Named : Condition → Prop
  | literal _ => True
  | symbol name => IsIdentifier name ∧ name ≠ "defined"
  | not c => c.Named
  | and a b | or a b => a.Named ∧ b.Named

/-- How tightly the outermost operator binds. -/
def binding : Condition → Nat
  | or _ _ => 0
  | and _ _ => 1
  | _ => 2

/-- The tokens of a condition where operators have to bind at least as tightly as a level says. Only
a condition that does not is put in parentheses. A symbol `S` is written `S`, `defined(S)` or
`defined S`. -/
inductive Printed : (level : Nat) → Condition → List Token → Prop
  | literal {level : Nat} (value : Bool) :
      Printed level (.literal value) [.int (if value then "1" else "0")]
  | plain {level : Nat} (name : String) : Printed level (.symbol name) [.word name]
  | enclosed {level : Nat} (name : String) : Printed level (.symbol name)
      [.word "defined", .delim .lparen, .word name, .delim .rparen]
  | bare {level : Nat} (name : String) : Printed level (.symbol name) [.word "defined", .word name]
  | not {level : Nat} {c : Condition} {ts : List Token} :
      Printed 2 c ts → Printed level (.not c) (.op "!" :: ts)
  | and {level : Nat} {a b : Condition} {ts us : List Token} : level ≤ 1 →
      Printed 1 a ts → Printed 2 b us → Printed level (.and a b) (ts ++ .op "&&" :: us)
  | or {level : Nat} {a b : Condition} {ts us : List Token} : level ≤ 0 →
      Printed 0 a ts → Printed 1 b us → Printed level (.or a b) (ts ++ .op "||" :: us)
  | group {level : Nat} {c : Condition} {ts : List Token} : c.binding < level →
      Printed 0 c ts → Printed level c (.delim .lparen :: ts ++ [.delim .rparen])

section
variable {a b c : Condition} {ts us : List Token} {n : Nat} {rest : List Token}

/-- The tokens are read as an operand, whatever follows. -/
def ReadsOperand (ts : List Token) (c : Condition) : Prop :=
  ∀ n rest, 4 * ts.length ≤ n → operand n (ts ++ rest) = .ok (c, rest)

/-- The tokens are read as the first operands of `&&`. What they cost is no more than their
number. -/
def ReadsConjunction (ts : List Token) (c : Condition) : Prop :=
  ∃ cost ≤ ts.length, ∀ n rest, 4 * ts.length ≤ n →
    conjunction (n + 1) (ts ++ rest) = conjunctionTail (n - cost) c rest

/-- The tokens are read as the first operands of `||`. -/
def ReadsDisjunction (ts : List Token) (c : Condition) : Prop :=
  ∃ cost ≤ ts.length, ∀ n rest, 4 * ts.length < n → rest.head? ≠ some (.op "&&") →
    disjunction (n + 1) (ts ++ rest) = disjunctionTail (n - cost) c rest

theorem conjunctionTail_of_head (h : rest.head? ≠ some (.op "&&")) :
    conjunctionTail n c rest = .ok (c, rest) := by
  unfold conjunctionTail
  split
  · simp at h
  · rfl

theorem disjunctionTail_of_head (h : rest.head? ≠ some (.op "||")) :
    disjunctionTail n c rest = .ok (c, rest) := by
  unfold disjunctionTail
  split
  · simp at h
  · rfl

theorem ReadsOperand.conjunction (h : ReadsOperand ts c) : ReadsConjunction ts c := by
  refine ⟨0, Nat.zero_le _, fun n rest hn => ?_⟩
  rw [Condition.conjunction, h n rest hn]
  rfl

theorem ReadsConjunction.eq_ok (h : ReadsConjunction ts c) (hn : 4 * ts.length < n)
    (hrest : rest.head? ≠ some (.op "&&")) :
    Condition.conjunction n (ts ++ rest) = .ok (c, rest) := by
  obtain ⟨cost, -, hread⟩ := h
  obtain _ | n := n
  · omega
  rw [hread n rest (by omega), conjunctionTail_of_head hrest]

theorem ReadsConjunction.disjunction (h : ReadsConjunction ts c) : ReadsDisjunction ts c := by
  refine ⟨0, Nat.zero_le _, fun n rest hn hrest => ?_⟩
  rw [Condition.disjunction, h.eq_ok hn hrest]
  rfl

theorem ReadsDisjunction.eq_ok (h : ReadsDisjunction ts c) (hn : 4 * ts.length + 1 < n)
    (hand : rest.head? ≠ some (.op "&&")) (hor : rest.head? ≠ some (.op "||")) :
    Condition.disjunction n (ts ++ rest) = .ok (c, rest) := by
  obtain ⟨cost, -, hread⟩ := h
  obtain _ | n := n
  · omega
  rw [hread n rest (by omega) hand, disjunctionTail_of_head hor]

theorem ReadsOperand.not (h : ReadsOperand ts c) : ReadsOperand (.op "!" :: ts) (.not c) := by
  intro n rest hn
  rw [length_cons] at hn
  obtain _ | n := n
  · omega
  rw [cons_append, operand, h n rest (by omega)]
  rfl

theorem ReadsDisjunction.group (h : ReadsDisjunction ts c) :
    ReadsOperand (.delim .lparen :: ts ++ [.delim .rparen]) c := by
  intro n rest hn
  have hlength : 4 * (ts.length + 2) ≤ n := by simpa using hn
  obtain _ | n := n
  · omega
  have hinner : disjunction n (ts ++ .delim .rparen :: rest) = .ok (c, .delim .rparen :: rest) :=
    h.eq_ok (by omega) (by simp) (by simp)
  rw [cons_append, cons_append, append_assoc, singleton_append, operand, hinner]
  rfl

theorem ReadsConjunction.and (ha : ReadsConjunction ts a) (hb : ReadsOperand us b) :
    ReadsConjunction (ts ++ .op "&&" :: us) (.and a b) := by
  obtain ⟨cost, hcost, hread⟩ := ha
  refine ⟨cost + 1, by simp; omega, fun n rest hn => ?_⟩
  rw [length_append, length_cons] at hn
  obtain ⟨m, hm⟩ : ∃ m, n - cost = m + 1 := ⟨n - cost - 1, by omega⟩
  rw [append_assoc, hread n _ (by omega), hm, cons_append, conjunctionTail,
    hb m rest (by omega), show n - (cost + 1) = m by omega]
  rfl

theorem ReadsDisjunction.or (ha : ReadsDisjunction ts a) (hb : ReadsConjunction us b) :
    ReadsDisjunction (ts ++ .op "||" :: us) (.or a b) := by
  obtain ⟨cost, hcost, hread⟩ := ha
  refine ⟨cost + 1, by simp; omega, fun n rest hn hrest => ?_⟩
  rw [length_append, length_cons] at hn
  obtain ⟨m, hm⟩ : ∃ m, n - cost = m + 1 := ⟨n - cost - 1, by omega⟩
  rw [append_assoc, hread n _ (by omega) (by simp), hm, cons_append, disjunctionTail,
    hb.eq_ok (by omega) hrest, show n - (cost + 1) = m by omega]
  rfl

/-- The tokens are read where operators have to bind as tightly as a level says. -/
def ReadsAt (level : Nat) (ts : List Token) (c : Condition) : Prop :=
  match level with
  | 0 => ReadsDisjunction ts c
  | 1 => ReadsConjunction ts c
  | _ => ReadsOperand ts c

theorem ReadsOperand.readsAt (h : ReadsOperand ts c) (level : Nat) : ReadsAt level ts c := by
  match level with
  | 0 => exact h.conjunction.disjunction
  | 1 => exact h.conjunction
  | _ + 2 => exact h

theorem readsOperand_symbol (hname : name ≠ "defined") :
    ReadsOperand [.word name] (.symbol name) := by
  intro n rest hn
  obtain _ | n := n
  · simp at hn
  simp [operand]

theorem readsOperand_defined :
    (ts = [.delim .lparen, .word name, .delim .rparen] ∨ ts = [.word name]) →
      ReadsOperand (.word "defined" :: ts) (.symbol name) := by
  intro hts n rest hn
  rw [length_cons] at hn
  obtain _ | n := n
  · omega
  rcases hts with rfl | rfl <;> simp [operand, definedSymbol]

/-- What is printed for a level is read there. -/
theorem Printed.readsAt (h : Printed level c ts) (hc : c.Named) : ReadsAt level ts c := by
  induction h with
  | literal value =>
    refine ReadsOperand.readsAt (fun n rest hn => ?_) _
    obtain _ | n := n
    · simp at hn
    cases value <;> simp [operand]
  | plain name => exact (readsOperand_symbol hc.2).readsAt _
  | enclosed name => exact (readsOperand_defined (.inl rfl)).readsAt _
  | bare name => exact (readsOperand_defined (.inr rfl)).readsAt _
  | not _ ih => exact (ReadsOperand.not (ih hc)).readsAt _
  | @and level a b ts us hlevel _ _ iha ihb =>
    have hand : ReadsConjunction _ _ := ReadsConjunction.and (iha hc.1) (ihb hc.2)
    match level with
    | 0 => exact hand.disjunction
    | 1 => exact hand
  | @or level a b ts us hlevel _ _ iha ihb =>
    obtain rfl : level = 0 := Nat.le_zero.1 hlevel
    exact ReadsDisjunction.or (iha hc.1) (ihb hc.2)
  | group _ _ ih => exact (ReadsDisjunction.group (ih hc)).readsAt _

end
end Condition

/-- Words and numbers, which have to be kept apart from each other. -/
def Token.isWordlike : Token → Bool
  | word _ | int _ | float _ => true
  | _ => false

/-- The tokens that conditions are written with. -/
def Token.InCondition : Token → Prop
  | word name => IsIdentifier name
  | int text => text = "0" ∨ text = "1"
  | op symbol => symbol = "!" ∨ symbol = "&&" ∨ symbol = "||"
  | delim d => d = .lparen ∨ d = .rparen
  | _ => False

namespace Scan
open Recognizer
variable {name : String}

def isGap (c : Char) : Bool := c == ' ' || c == '\t' || c == '\n'

/-- A text that spells tokens one after the other, with any spaces, tabs and ends of lines around
them. Between two words or numbers there is at least one. -/
inductive Spaced : List Token → List Char → Prop
  | nil : Spaced [] []
  | gap {c : Char} {ts : List Token} {cs : List Char} : isGap c → Spaced ts cs → Spaced ts (c :: cs)
  | token {t : Token} {ts : List Token} {cs : List Char} : Spaced ts cs →
      (t.isWordlike → ts.head?.any Token.isWordlike → cs.head?.all isGap) →
      Spaced (t :: ts) (t.text.toList ++ cs)

variable {t u : Token} {ts : List Token} {cs rest : List Char} {c : Char}

theorem mem_breaks_of_isGap (h : isGap c) : c ∈ breaks := by
  simp only [isGap, Bool.or_eq_true, beq_iff_eq] at h
  rcases h with (rfl | rfl) | rfl <;> decide

theorem isBlank_of_isGap (h : isGap c) : Text.isBlank c := by
  simp only [isGap, Bool.or_eq_true, beq_iff_eq] at h
  rcases h with (rfl | rfl) | rfl <;> decide

theorem isWordStart_bounds (h : isWordStart c) :
    65 ≤ c.toNat ∧ c.toNat ≤ 90 ∨ 97 ≤ c.toNat ∧ c.toNat ≤ 122 ∨ c.toNat = 95 := by
  simp only [isWordStart, Bool.or_eq_true, beq_iff_eq] at h
  rcases h with hletter | rfl
  · have hcases : c.isUpper = true ∨ c.isLower = true := Bool.or_eq_true_iff.1 hletter
    rcases hcases with hupper | hlower
    · obtain ⟨hlow, hhigh⟩ := of_decide_eq_true hupper
      exact .inl ⟨UInt32.le_iff_toNat_le.1 hlow, UInt32.le_iff_toNat_le.1 hhigh⟩
    · obtain ⟨hlow, hhigh⟩ := Bool.and_eq_true_iff.1 hlower
      exact .inr (.inl ⟨UInt32.le_iff_toNat_le.1 (of_decide_eq_true hlow),
        UInt32.le_iff_toNat_le.1 (of_decide_eq_true hhigh)⟩)
  · exact .inr (.inr rfl)

theorem isDigit_of_isWordStart (h : isWordStart c) : c.isDigit = false := by
  have hbounds := isWordStart_bounds h
  simp only [Char.isDigit, Bool.and_eq_false_iff, decide_eq_false_iff_not,
    UInt32.le_iff_toNat_le]
  change ¬ 48 ≤ c.toNat ∨ ¬ c.toNat ≤ 57
  omega

theorem not_isBlank_of_isWordStart (h : isWordStart c) : ¬ Text.isBlank c := by
  have hbounds := isWordStart_bounds h
  simp [Text.isBlank]
  omega

theorem shown_word (h : IsIdentifier name) : Shown (.word name) := by
  obtain ⟨c, cs, htext, hc, hcs⟩ := h
  have hdigit := isDigit_of_isWordStart hc
  have hne : c ≠ '"' ∧ c ≠ '.' ∧ c ≠ '0' := by
    refine ⟨?_, ?_, ?_⟩ <;> (rintro rfl; revert hc; decide)
  have hint : int (c :: cs) = none := by
    simp [int, seq, Recognizer.or, exactly, digits, run1, hdigit, Ne.symm hne.2.2]
  have hword : word (c :: cs) = some (c :: cs, []) := by
    simp [word, seq, one, run, hc, takeWhile_eq_self_iff.2 hcs, dropWhile_eq_nil_iff.2 hcs]
  refine ⟨c, cs, htext, not_isBlank_of_isWordStart hc, ?_⟩
  have hname : String.ofList (c :: cs) = name := by rw [← htext, String.ofList_toList]
  simp only [token, quoted_of_ne hne.1, float_of_not_digit hdigit hne.2.1, hint, hword, hname]

/-- A condition's token starts with a character that ends words and numbers, unless it is one. -/
theorem head_of_inCondition (hu : u.InCondition) :
    ∃ c cs, u.text.toList = c :: cs ∧ c ≠ '=' ∧ (u.isWordlike = false → c ∈ numberEnds) := by
  cases u with
  | word name =>
    obtain ⟨c, cs, htext, hc, -⟩ := hu
    exact ⟨c, cs, htext, by rintro rfl; revert hc; decide, nofun⟩
  | int text => rcases hu with rfl | rfl <;> exact ⟨_, [], rfl, by decide, nofun⟩
  | op symbol => rcases hu with rfl | rfl | rfl <;> exact ⟨_, _, rfl, by decide, by decide⟩
  | delim d => rcases hu with rfl | rfl <;> exact ⟨_, _, rfl, by decide, by decide⟩
  | float _ | quoted _ | directive _ _ => cases hu

theorem Spaced.head (h : Spaced ts cs) (hts : ∀ u ∈ ts, u.InCondition) (hc : c ∈ cs.head?) :
    isGap c ∨ c ≠ '=' ∧ ∃ u ∈ ts.head?, (u.isWordlike = false → c ∈ numberEnds) := by
  cases h with
  | nil => cases hc
  | gap hgap _ =>
    cases hc
    exact .inl hgap
  | @token u ts cs _ _ =>
    obtain ⟨d, ds, htext, hne, hends⟩ := head_of_inCondition (hts u mem_cons_self)
    obtain rfl : d = c := by simpa [htext] using hc
    exact .inr ⟨hne, u, rfl, hends⟩

theorem anyOf_eq_none {texts : List (List Char)} (h : ∀ x ∈ texts, exactly x cs = none) :
    anyOf texts cs = none := by
  induction texts with
  | nil => rfl
  | cons x texts ih =>
    obtain ⟨hx, htexts⟩ := forall_mem_cons.1 h
    cases x with
    | nil => exact ih htexts
    | cons y ys => simp [anyOf, Recognizer.or, hx, ih htexts]

theorem tokens?_not (hrest : ∀ c ∈ rest.head?, c ≠ '=') :
    tokens? ('!' :: rest) = (tokens? rest).map (.op "!" :: ·) := by
  have hlong : anyOf (longOperators.map String.toList) ('!' :: rest) = none := by
    refine anyOf_eq_none fun x hx => ?_
    have hshape : ∀ x ∈ longOperators.map String.toList,
        x = ['!', '='] ∨ ∃ y ∈ x.head?, '!' ≠ y := by simp [longOperators]
    rcases hshape x hx with rfl | ⟨y, hy, hne⟩
    · cases rest with
      | nil => rfl
      | cons c rest => simp [exactly, (hrest c rfl).symm]
    · obtain ⟨ys, rfl⟩ := head?_eq_some_iff.1 hy
      simp [exactly, hne.symm]
  have hoperator : operator ('!' :: rest) = some (['!'], rest) := by
    simp only [operator, Recognizer.or, hlong]
    rfl
  refine tokens?_of_token (by decide) rfl ?_
  simp only [token, hoperator]
  rfl

/-- The tokens of a condition are read off its text. -/
theorem Spaced.tokens? (h : Spaced ts cs) (hts : ∀ t ∈ ts, t.InCondition) :
    Scan.tokens? cs = some ts := by
  induction h with
  | nil => exact tokens?_nil
  | gap hgap _ ih =>
    rw [← ih hts]
    exact tokens?_dropWhile (dropWhile_cons_of_pos (isBlank_of_isGap hgap))
  | @token t ts cs hmore hapart ih =>
    obtain ⟨ht, hus⟩ := forall_mem_cons.1 hts
    have hwordlike : t.isWordlike → ∀ c ∈ cs.head?, c ∈ numberEnds := by
      intro hword c hc
      have hbreak : isGap c → c ∈ numberEnds := fun hgap =>
        breaks_subset_ends (.int "") (mem_breaks_of_isGap hgap)
      rcases hmore.head hus hc with hgap | ⟨-, u, hu, hends⟩
      · exact hbreak hgap
      · cases hlike : u.isWordlike with
        | true =>
          have hgaps := hapart hword ((Option.any_eq_true _ _).2 ⟨u, hu, hlike⟩)
          exact hbreak ((Option.all_eq_true _ _).1 hgaps c hc)
        | false => exact hends hlike
    have hfirst : Scan.tokens? (t.text.toList ++ cs) = (Scan.tokens? cs).map (t :: ·) := by
      cases t with
      | word name =>
        exact tokens?_text_append (shown_word ht) fun c hc => .tail _ (hwordlike rfl c hc)
      | int text =>
        have hshown : Shown (.int text) := by
          rcases ht with rfl | rfl <;> exact ⟨_, [], rfl, by decide, rfl⟩
        exact tokens?_text_append hshown (hwordlike rfl)
      | op symbol =>
        rcases ht with rfl | rfl | rfl
        · refine tokens?_not fun c hc => ?_
          rcases hmore.head hus hc with hgap | ⟨hne, -⟩
          · rintro rfl
            cases hgap
          · exact hne
        · exact tokens?_of_token (by decide) rfl rfl
        · exact tokens?_of_token (by decide) rfl rfl
      | delim d =>
        rcases ht with rfl | rfl
        · exact tokens?_lparen cs
        · exact tokens?_rparen cs
      | float _ | quoted _ | directive _ _ => cases ht
    rw [hfirst, ih hus]
    rfl

theorem exists_spaced (ts : List Token) : ∃ cs, Spaced ts cs := by
  induction ts with
  | nil => exact ⟨[], .nil⟩
  | cons t ts ih =>
    obtain ⟨cs, hcs⟩ := ih
    exact ⟨_, .token (.gap (c := ' ') rfl hcs) fun _ _ => rfl⟩

end Scan

namespace Condition
variable {level : Nat}

theorem exists_printed (c : Condition) (level : Nat) : ∃ ts, Printed level c ts := by
  induction c generalizing level with
  | literal value => exact ⟨_, .literal value⟩
  | symbol name => exact ⟨_, .plain name⟩
  | not c ih =>
    obtain ⟨ts, hts⟩ := ih 2
    exact ⟨_, .not hts⟩
  | and a b iha ihb =>
    obtain ⟨ts, hts⟩ := iha 1
    obtain ⟨us, hus⟩ := ihb 2
    by_cases hlevel : level ≤ 1
    · exact ⟨_, .and hlevel hts hus⟩
    · exact ⟨_, .group (Nat.not_le.1 hlevel) (.and (Nat.zero_le 1) hts hus)⟩
  | or a b iha ihb =>
    obtain ⟨ts, hts⟩ := iha 0
    obtain ⟨us, hus⟩ := ihb 1
    by_cases hlevel : level ≤ 0
    · exact ⟨_, .or hlevel hts hus⟩
    · exact ⟨_, .group (Nat.not_le.1 hlevel) (.or (Nat.le_refl 0) hts hus)⟩

theorem isIdentifier_defined : IsIdentifier "defined" :=
  ⟨'d', ['e', 'f', 'i', 'n', 'e', 'd'], rfl, by decide, all_eq_true.1 rfl⟩

theorem Printed.inCondition {c : Condition} {ts : List Token} (h : Printed level c ts)
    (hc : c.Named) : ∀ t ∈ ts, t.InCondition := by
  induction h with
  | literal value => cases value <;> simp [Token.InCondition]
  | plain name => simpa [Token.InCondition] using hc.1
  | enclosed name => simpa [Token.InCondition, isIdentifier_defined] using hc.1
  | bare name => simpa [Token.InCondition, isIdentifier_defined] using hc.1
  | not _ ih => simpa [Token.InCondition] using ih hc
  | and _ _ _ iha ihb | or _ _ _ iha ihb =>
    exact forall_mem_append.2
      ⟨iha hc.1, forall_mem_cons.2 ⟨by simp [Token.InCondition], ihb hc.2⟩⟩
  | group _ _ ih => simpa [Token.InCondition, or_imp, forall_and] using ih hc

/-- Every condition over proper symbols can be printed, and however its symbols are written and its
tokens are spaced, the text is read as the condition. -/
theorem read_printed {c : Condition} (hc : c.Named) :
    (∃ ts text, Printed 0 c ts ∧ Scan.Spaced ts text) ∧
      ∀ ts text, Printed 0 c ts → Scan.Spaced ts text →
        read "if" (String.ofList text) = .ok c ∧
          ∀ defined, (read "if" (String.ofList text)).map (eval defined) =
            .ok (c.eval defined) := by
  constructor
  · obtain ⟨ts, hprinted⟩ := exists_printed c 0
    obtain ⟨text, hspaced⟩ := Scan.exists_spaced ts
    exact ⟨ts, text, hprinted, hspaced⟩
  · intro ts text hprinted hspaced
    obtain ⟨ls, hls, rfl⟩ : ∃ ls, tokenize (String.ofList text) = .ok ls ∧
        ls.map Lexeme.token = ts :=
      Scan.lexemes_of_tokens? (by simpa using hspaced.tokens? (hprinted.inCondition hc)) 1 true
    have hreads : ReadsDisjunction (ls.map Lexeme.token) c := hprinted.readsAt hc
    have hall : disjunction (fuel (ls.map Lexeme.token)) (ls.map Lexeme.token ++ []) =
        .ok (c, []) :=
      hreads.eq_ok (by unfold fuel; omega) nofun nofun
    rw [append_nil] at hall
    have hread : read "if" (String.ofList text) = .ok c := by
      simp [read, hls, hall]
    exact ⟨hread, fun defined => by rw [hread]; rfl⟩

/-- `A && (A || 0) || (!!A || 1 && (A && A))`. -/
def nested : Condition :=
  .or (.and (.symbol "A") (.or (.symbol "A") (.literal false)))
    (.or (.not (.not (.symbol "A"))) (.and (.literal true) (.and (.symbol "A") (.symbol "A"))))

/-- The symbol is written in all three ways, and blanks stand only where they have to. -/
theorem read_printed_nested : nested.Named ∧
    read "if" "A&&(defined A||0)||(!!defined(A)||1&&(defined\tA&&A))" = .ok nested := by
  have hsymbol : IsIdentifier "A" ∧ "A" ≠ "defined" := ⟨⟨'A', [], rfl, rfl, nofun⟩, by decide⟩
  have hnamed : nested.Named :=
    ⟨⟨hsymbol, hsymbol, trivial⟩, hsymbol, trivial, hsymbol, hsymbol⟩
  have hleft : Printed 0 (.and (.symbol "A") (.or (.symbol "A") (.literal false))) _ :=
    .and (by decide) (.plain "A")
      (.group (by decide) (.or (by decide) (.bare "A") (.literal false)))
  have hright : Printed 1 (.or (.not (.not (.symbol "A")))
      (.and (.literal true) (.and (.symbol "A") (.symbol "A")))) _ :=
    .group (by decide) (.or (by decide) (.not (.not (.enclosed "A")))
      (.and (by decide) (.literal true)
        (.group (by decide) (.and (by decide) (.bare "A") (.plain "A")))))
  have hread := (read_printed hnamed).2 _
    "A&&(defined A||0)||(!!defined(A)||1&&(defined\tA&&A))".toList (.or (by decide) hleft hright)
  rw [String.ofList_toList] at hread
  refine ⟨hnamed, (hread ?_).1⟩
  repeat first | exact .nil | refine .gap rfl ?_ | refine .token ?_ (by decide)

end Condition
end ShaderDialect
