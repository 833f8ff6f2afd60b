import ShaderDialect.Proofs.Expression.Grammar

/-! Tokens stand for at most one grouped expression. Reading from the left, with operators taken as
long as they bind tightly enough, has one outcome at most, and finds every grouped expression. -/
namespace ShaderDialect

namespace Rank
variable {t : Token} {k : Rank}

/-- The rank of a token that goes on after an operand. -/
def after? (t : Token) : Option Rank := if t = .op "?" then some choice else ofToken? t

theorem mem_of_lookup {symbol : String} {n : Nat} (h : leftward.lookup symbol = some n) :
    (symbol, n) ∈ leftward := by
  obtain ⟨l₁, l₂, he, -⟩ := List.lookup_eq_some_iff.1 h
  simp [he]

/-- Operators group to the left, apart from assignments and choices. -/
theorem ofToken?_cases (h : ofToken? t = some k) :
    k = ⟨0, 0, 1⟩ ∨ k = ⟨1, 13, 1⟩ ∨ ∃ n, 3 ≤ n ∧ n ≤ 12 ∧ k = ⟨n, n, n + 1⟩ := by
  unfold ofToken? at h
  split at h
  · exact .inl (Option.some.inj h).symm
  · split at h
    · exact .inr (.inl (Option.some.inj h).symm)
    · obtain ⟨n, hn, rfl⟩ := Option.map_eq_some_iff.1 h
      have hbounds : ∀ p ∈ leftward, 3 ≤ p.2 ∧ p.2 ≤ 12 := by decide
      have := hbounds _ (mem_of_lookup hn)
      exact .inr (.inr ⟨n, this.1, this.2, rfl⟩)
  · cases h

theorem after?_cases (h : after? t = some k) :
    k = ⟨0, 0, 1⟩ ∨ k = ⟨1, 13, 1⟩ ∨ k = ⟨2, 3, 2⟩ ∨ ∃ n, 3 ≤ n ∧ n ≤ 12 ∧ k = ⟨n, n, n + 1⟩ := by
  unfold after? at h
  split at h
  · exact .inr (.inr (.inl (Option.some.inj h).symm))
  · obtain h | h | h := ofToken?_cases h
    · exact .inl h
    · exact .inr (.inl h)
    · exact .inr (.inr (.inr h))

theorem level_le_left (h : after? t = some k) : k.level ≤ k.left := by
  obtain rfl | rfl | rfl | ⟨n, -, -, rfl⟩ := after?_cases h <;> simp

theorem level_le_right (h : after? t = some k) : k.level ≤ k.right := by
  obtain rfl | rfl | rfl | ⟨n, -, -, rfl⟩ := after?_cases h <;> simp

/-- An operator whose left operand may be of another one's level does not belong to that one's right
operand. -/
theorem level_lt_right {t' : Token} {k' : Rank} (h : after? t = some k) (h' : after? t' = some k')
    (hle : k.left ≤ k'.level) : k.level < k'.right := by
  obtain rfl | rfl | rfl | ⟨n, hn, hn', rfl⟩ := after?_cases h <;>
    obtain rfl | rfl | rfl | ⟨m, hm, hm', rfl⟩ := after?_cases h' <;> simp at hle ⊢ <;> omega

end Rank

namespace Expression
open Rank (after?)
variable {t : Token} {n : Nat} {ts us : List Token} {e : Expression}

/-- Tokens that go on after an operand and are part of it. -/
def suffixMarks : List Token :=
  [.delim .lparen, .delim .lbracket, .op "++", .op "--"] ++ memberMarks

theorem after?_of_mem_suffixMarks : ∀ t ∈ suffixMarks, after? t = none := by decide

/-- The next token takes the expression as its left operand, among operators of a least level. -/
def Continues (n : Nat) (e : Expression) (ts : List Token) : Prop :=
  ∃ t ∈ ts.head?, ∃ k, after? t = some k ∧ n ≤ k.level ∧ k.left ≤ e.level

variable (isType : String → Bool)

mutual
/-- Reading an expression of a least level, up to the tokens that are left. -/
inductive Parses : Nat → List Token → Expression → List Token → Prop
  | mk {n : Nat} {ts us vs : List Token} {o e : Expression} :
    Operand ts o us → Climbs n o us e vs → Parses n ts e vs

/-- Reading an operand with the unary operators before it. -/
inductive Operand : List Token → Expression → List Token → Prop
  | unary {symbol : String} {ts us : List Token} {e : Expression} :
    Operand ts e us → Operand (.op symbol :: ts) (.unary symbol e) us
  | cast {type : String} {ts us : List Token} {e : Expression} :
    isType type → Operand ts e us →
    Operand (.delim .lparen :: .word type :: .delim .rparen :: ts) (.cast type e) us
  | group {ts us vs : List Token} {e e' : Expression} :
    e.isTypeName isType = false → Parses 0 ts e (.delim .rparen :: us) →
    Suffixed (.group e) us e' vs → Operand (.delim .lparen :: ts) e' vs
  | atom {t : Token} {ts us : List Token} {e : Expression} :
    isAtom t → Suffixed (.atom t) ts e us → Operand (t :: ts) e us

/-- Reading what follows an operand and is part of it. -/
inductive Suffixed : Expression → List Token → Expression → List Token → Prop
  | index {ts us vs : List Token} {e i e' : Expression} :
    Parses 0 ts i (.delim .rbracket :: us) → Suffixed (.index e i) us e' vs →
    Suffixed e (.delim .lbracket :: ts) e' vs
  | call {ts us vs : List Token} {e e' : Expression} {args : List Expression} :
    Arguments ts args us → Suffixed (.call e args) us e' vs →
    Suffixed e (.delim .lparen :: ts) e' vs
  | member {mark : Token} {name : String} {ts us : List Token} {e e' : Expression} :
    mark ∈ memberMarks → Suffixed (.member e mark name) ts e' us →
    Suffixed e (mark :: .word name :: ts) e' us
  | stepped {symbol : String} {ts us : List Token} {e e' : Expression} :
    symbol ∈ ["++", "--"] → Suffixed (.stepped e symbol) ts e' us →
    Suffixed e (.op symbol :: ts) e' us
  | done {ts : List Token} {e : Expression} :
    (∀ t ∈ ts.head?, t ∉ suffixMarks) → Suffixed e ts e ts

/-- Reading the arguments of a call and the parenthesis after them. -/
inductive Arguments : List Token → List Expression → List Token → Prop
  | nil {ts : List Token} : Arguments (.delim .rparen :: ts) [] ts
  | last {ts us : List Token} {e : Expression} :
    Parses 1 ts e (.delim .rparen :: us) → Arguments ts [e] us
  | more {ts us vs : List Token} {e e' : Expression} {es : List Expression} :
    Parses 1 ts e (.delim .comma :: us) → Arguments us (e' :: es) vs →
    Arguments ts (e :: e' :: es) vs

/-- Reading operators of a least level after an expression, with their right operands. -/
inductive Climbs : Nat → Expression → List Token → Expression → List Token → Prop
  | join {n : Nat} {mark : Token} {k : Rank} {ts us vs : List Token} {l r e : Expression} :
    Rank.ofToken? mark = some k → n ≤ k.level → k.left ≤ l.level →
    Parses k.right ts r us → Climbs n (.join mark l r) us e vs → Climbs n l (mark :: ts) e vs
  | choice {n : Nat} {ts us vs ws : List Token} {c a b e : Expression} :
    n ≤ Rank.choice.level → Rank.choice.left ≤ c.level →
    Parses 0 ts a (.delim .colon :: us) → Parses Rank.choice.right us b vs →
    Climbs n (.choice c a b) vs e ws → Climbs n c (.op "?" :: ts) e ws
  | done {n : Nat} {ts : List Token} {e : Expression} :
    ¬ Continues n e ts → Climbs n e ts e ts
end

theorem ofToken?_question : Rank.ofToken? (.op "?") = none := by decide

theorem stepped_marks : ∀ symbol ∈ ["++", "--"],
    Token.op symbol ∉ memberMarks ∧ Token.op symbol ∈ suffixMarks := by decide

theorem after?_of_ofToken? {k : Rank} (h : Rank.ofToken? t = some k) : after? t = some k := by
  have hne : t ≠ .op "?" := by rintro rfl; exact absurd h (by simp [ofToken?_question])
  simp [after?, hne, h]

variable {isType}

theorem not_parses_rparen : ¬ Parses isType n (.delim .rparen :: ts) e us := by
  rintro ⟨ho, -⟩
  cases ho with
  | atom ht _ => cases ht

/-- A word in parentheses is read as nothing but that word. -/
theorem Parses.eq_atom {name : String}
    (h : Parses isType n (.word name :: .delim .rparen :: ts) e us) : e = .atom (.word name) := by
  obtain ⟨ho, hc⟩ := h
  cases ho with
  | atom _ hs =>
    cases hs with
    | member hm _ => exact absurd hm (by decide)
    | done _ =>
      cases hc with
      | join hk _ _ _ _ => cases hk
      | done _ => rfl

theorem not_parses_typeName {type : String} (ht : isType type) (he : e.isTypeName isType = false) :
    ¬ Parses isType n (.word type :: .delim .rparen :: ts) e us := by
  intro h
  rw [h.eq_atom] at he
  simp [isTypeName, ht] at he

mutual
theorem Parses.unique {n : Nat} {ts us us' : List Token} {e e' : Expression} :
    Parses isType n ts e us → Parses isType n ts e' us' → e = e' ∧ us = us'
  | .mk ho hc, .mk ho' hc' => by
    obtain ⟨rfl, rfl⟩ := ho.unique ho'
    exact hc.unique hc'
  termination_by structural h => h

theorem Operand.unique {ts us us' : List Token} {e e' : Expression} :
    Operand isType ts e us → Operand isType ts e' us' → e = e' ∧ us = us'
  | .unary h, h' => by
    cases h' with
    | unary h' =>
      obtain ⟨rfl, rfl⟩ := h.unique h'
      exact ⟨rfl, rfl⟩
    | atom ht _ => cases ht
  | .cast ht h, h' => by
    cases h' with
    | cast _ h' =>
      obtain ⟨rfl, rfl⟩ := h.unique h'
      exact ⟨rfl, rfl⟩
    | group hn h' _ => exact absurd h' (not_parses_typeName ht hn)
    | atom ht _ => cases ht
  | .group hn h hs, h' => by
    cases h' with
    | cast ht _ => exact absurd h (not_parses_typeName ht hn)
    | group _ h' hs' =>
      obtain ⟨rfl, hu⟩ := h.unique h'
      obtain rfl := (List.cons.inj hu).2
      exact hs.unique hs'
    | atom ht _ => cases ht
  | .atom ht hs, h' => by
    cases h' with
    | unary _ => cases ht
    | cast _ _ => cases ht
    | group _ _ _ => cases ht
    | atom _ hs' => exact hs.unique hs'
  termination_by structural h => h

theorem Suffixed.unique {ts us us' : List Token} {e x x' : Expression} :
    Suffixed isType e ts x us → Suffixed isType e ts x' us' → x = x' ∧ us = us'
  | .index h hs, h' => by
    cases h' with
    | index h' hs' =>
      obtain ⟨rfl, hu⟩ := h.unique h'
      obtain rfl := (List.cons.inj hu).2
      exact hs.unique hs'
    | member hm _ => exact absurd hm (by decide)
    | done hn => exact absurd (by decide) (hn _ rfl)
  | .call h hs, h' => by
    cases h' with
    | call h' hs' =>
      obtain ⟨rfl, rfl⟩ := h.unique h'
      exact hs.unique hs'
    | member hm _ => exact absurd hm (by decide)
    | done hn => exact absurd (by decide) (hn _ rfl)
  | .member hm hs, h' => by
    cases h' with
    | index _ _ => exact absurd hm (by decide)
    | call _ _ => exact absurd hm (by decide)
    | member _ hs' => exact hs.unique hs'
    | stepped hm' _ => exact absurd hm (stepped_marks _ hm').1
    | done hn => exact absurd (by simp [suffixMarks, hm]) (hn _ rfl)
  | .stepped hm hs, h' => by
    cases h' with
    | member hm' _ => exact absurd hm' (stepped_marks _ hm).1
    | stepped _ hs' => exact hs.unique hs'
    | done hn => exact absurd (stepped_marks _ hm).2 (hn _ rfl)
  | .done hn, h' => by
    cases h' with
    | index _ _ => exact absurd (by decide) (hn _ rfl)
    | call _ _ => exact absurd (by decide) (hn _ rfl)
    | member hm _ => exact absurd (by simp [suffixMarks, hm]) (hn _ rfl)
    | stepped hm _ => exact absurd (stepped_marks _ hm).2 (hn _ rfl)
    | done _ => exact ⟨rfl, rfl⟩
  termination_by structural h => h

theorem Arguments.unique {ts us us' : List Token} {es es' : List Expression} :
    Arguments isType ts es us → Arguments isType ts es' us' → es = es' ∧ us = us'
  | .nil, h' => by
    cases h' with
    | nil => exact ⟨rfl, rfl⟩
    | last h' => exact absurd h' not_parses_rparen
    | more h' _ => exact absurd h' not_parses_rparen
  | .last h, h' => by
    cases h' with
    | nil => exact absurd h not_parses_rparen
    | last h' =>
      obtain ⟨rfl, hu⟩ := h.unique h'
      exact ⟨rfl, (List.cons.inj hu).2⟩
    | more h' _ =>
      obtain ⟨rfl, hu⟩ := h.unique h'
      cases hu
  | .more h hs, h' => by
    cases h' with
    | nil => exact absurd h not_parses_rparen
    | last h' =>
      obtain ⟨rfl, hu⟩ := h.unique h'
      cases hu
    | more h' hs' =>
      obtain ⟨rfl, hu⟩ := h.unique h'
      obtain rfl := (List.cons.inj hu).2
      obtain ⟨hes, rfl⟩ := hs.unique hs'
      exact ⟨by rw [hes], rfl⟩
  termination_by structural h => h

theorem Climbs.unique {n : Nat} {ts us us' : List Token} {l e e' : Expression} :
    Climbs isType n l ts e us → Climbs isType n l ts e' us' → e = e' ∧ us = us'
  | .join hk hn hl h hc, h' => by
    cases h' with
    | join hk' _ _ h' hc' =>
      cases hk.symm.trans hk'
      obtain ⟨rfl, rfl⟩ := h.unique h'
      exact hc.unique hc'
    | choice _ _ _ _ _ => simp [ofToken?_question] at hk
    | done hd => exact absurd ⟨_, rfl, _, after?_of_ofToken? hk, hn, hl⟩ hd
  | .choice hn hl ha hb hc, h' => by
    cases h' with
    | join hk _ _ _ _ => simp [ofToken?_question] at hk
    | choice _ _ ha' hb' hc' =>
      obtain ⟨rfl, hu⟩ := ha.unique ha'
      obtain rfl := (List.cons.inj hu).2
      obtain ⟨rfl, rfl⟩ := hb.unique hb'
      exact hc.unique hc'
    | done hd => exact absurd ⟨_, rfl, _, rfl, hn, hl⟩ hd
  | .done hd, h' => by
    cases h' with
    | join hk hn hl _ _ => exact absurd ⟨_, rfl, _, after?_of_ofToken? hk, hn, hl⟩ hd
    | choice hn hl _ _ _ => exact absurd ⟨_, rfl, _, rfl, hn, hl⟩ hd
    | done _ => exact ⟨rfl, rfl⟩
  termination_by structural h => h
end

/-- What follows belongs to no operand at the end of the expression. -/
def Stops : Expression → List Token → Prop
  | join mark _ r, ts =>
    (∀ k, Rank.ofToken? mark = some k → ¬ Continues k.right r ts) ∧ Stops r ts
  | choice _ _ b, ts => ¬ Continues Rank.choice.right b ts ∧ Stops b ts
  | _, ts => ∀ t ∈ ts.head?, t ∉ suffixMarks

theorem Stops.not_mem_suffixMarks {ts : List Token} :
    ∀ {e : Expression}, Stops e ts → ∀ t ∈ ts.head?, t ∉ suffixMarks
  | join _ _ _, h => Stops.not_mem_suffixMarks (by simp only [Stops] at h; exact h.2)
  | choice _ _ _, h => Stops.not_mem_suffixMarks (by simp only [Stops] at h; exact h.2)
  | atom _, h | group _, h | index _ _, h | call _ _, h | member _ _ _, h | stepped _ _, h
  | unary _ _, h | cast _ _, h => by simpa only [Stops] using h

/-- The end of an expression: nothing follows that has a rank or belongs to an operand. -/
def Ends (ts : List Token) : Prop := ∀ t ∈ ts.head?, after? t = none ∧ t ∉ suffixMarks

theorem Ends.not_continues (h : Ends ts) (n : Nat) (e : Expression) : ¬ Continues n e ts := by
  rintro ⟨t, ht, k, hk, -, -⟩
  rw [(h t ht).1] at hk
  cases hk

theorem Ends.stops (h : Ends ts) : ∀ e : Expression, Stops e ts
  | join _ _ r => by
    rw [Stops]
    exact ⟨fun k _ => h.not_continues k.right r, h.stops r⟩
  | choice _ _ b => by
    rw [Stops]
    exact ⟨h.not_continues _ b, h.stops b⟩
  | atom _ | group _ | index _ _ | call _ _ | member _ _ _ | stepped _ _ | unary _ _
  | cast _ _ => by
    simp only [Stops]
    exact fun t ht => (h t ht).2

theorem not_continues_of_left_le {t' : Token} {k k' : Rank} (hk : after? t = some k)
    (hk' : after? t' = some k') (hle : k.left ≤ k'.level) (e : Expression) (ts : List Token) :
    ¬ Continues k'.right e (t :: ts) := by
  rintro ⟨t₁, ht₁, k₁, hk₁, hn, -⟩
  obtain rfl : t = t₁ := by simpa using ht₁
  cases hk.symm.trans hk₁
  have hlt := Rank.level_lt_right hk hk' hle
  omega

/-- An expression that an operator takes as its left operand leaves the operator to it. -/
theorem stops_of_left_le {t : Token} {k : Rank} (hk : after? t = some k) (ts : List Token) :
    ∀ {e : Expression}, e.grouped isType → k.left ≤ e.level → Stops e (t :: ts)
  | join mark l r, hg, hle => by
    cases hm : Rank.ofToken? mark with
    | none => simp [grouped, hm] at hg
    | some k' =>
      have hm' := after?_of_ofToken? hm
      obtain ⟨-, hr, -, hgr⟩ := (grouped_join hm l r).1 hg
      rw [level_join hm] at hle
      have hright := Rank.level_le_right hm'
      rw [Stops]
      refine ⟨?_, stops_of_left_le hk ts hgr (by omega)⟩
      intro k'' hk''
      cases hm.symm.trans hk''
      exact not_continues_of_left_le hk hm' hle r ts
  | choice c a b, hg, hle => by
    obtain ⟨⟨⟨⟨-, hb⟩, -⟩, -⟩, hgb⟩ : (((_ ∧ Rank.choice.right ≤ b.level) ∧ _) ∧ _) ∧
        b.grouped isType := by
      simpa [grouped] using hg
    have hle : k.left ≤ Rank.choice.level := hle
    rw [Stops]
    have hk' : after? (.op "?") = some Rank.choice := rfl
    exact ⟨not_continues_of_left_le hk hk' hle b ts,
      stops_of_left_le hk ts hgb (Nat.le_trans hle hb)⟩
  | atom _, _, _ | group _, _, _ | index _ _, _, _ | call _ _, _, _ | member _ _ _, _, _
  | stepped _ _, _, _ | unary _ _, _, _ | cast _ _, _, _ => by
    simp only [Stops]
    intro t' ht' hmem
    obtain rfl : t = t' := by simpa using ht'
    simp [after?_of_mem_suffixMarks t hmem] at hk

variable (isType) in
/-- Reading finds the expression in its tokens, and goes on with what follows them. -/
structure Found (e : Expression) : Prop where
  suffixed : 14 ≤ e.level → ∀ {ts us : List Token} {e' : Expression},
    Suffixed isType e ts e' us → Operand isType (e.tokens ++ ts) e' us
  operand : 13 ≤ e.level → ∀ {ts : List Token},
    (∀ t ∈ ts.head?, t ∉ suffixMarks) → Operand isType (e.tokens ++ ts) e ts
  parses : ∀ {n : Nat} {ts us : List Token} {e' : Expression}, n ≤ e.level → Stops e ts →
    Climbs isType n e ts e' us → Parses isType n (e.tokens ++ ts) e' us

theorem Found.of_suffixed
    (h : ∀ {ts us : List Token} {e' : Expression},
      Suffixed isType e ts e' us → Operand isType (e.tokens ++ ts) e' us) : Found isType e where
  suffixed _ _ _ _ := h
  operand _ _ hts := h (.done hts)
  parses _ hs hc := .mk (h (.done hs.not_mem_suffixMarks)) hc

theorem Found.of_operand (hlevel : e.level = 13)
    (h : ∀ {ts : List Token}, (∀ t ∈ ts.head?, t ∉ suffixMarks) →
      Operand isType (e.tokens ++ ts) e ts) : Found isType e where
  suffixed h14 := by omega
  operand _ _ := h
  parses _ hs hc := .mk (h hs.not_mem_suffixMarks) hc

theorem Found.parses_of_ends (h : Found isType e) (hn : n ≤ e.level) (hts : Ends ts) :
    Parses isType n (e.tokens ++ ts) e ts :=
  h.parses hn (hts.stops e) (.done (hts.not_continues n e))

theorem ends_cons (h : after? t = none ∧ t ∉ suffixMarks) (ts : List Token) : Ends (t :: ts) := by
  intro t' ht'
  obtain rfl : t = t' := by simpa using ht'
  exact h

theorem Found.group (h : Found isType e) (he : e.isTypeName isType = false) :
    Found isType (group e) := by
  refine .of_suffixed fun {ts us e'} hs => ?_
  have hp := h.parses_of_ends (Nat.zero_le _) (ends_cons (t := .delim .rparen) (by decide) ts)
  simpa [tokens] using Operand.group he hp hs

theorem Found.index {i : Expression} (he : Found isType e) (hlevel : 14 ≤ e.level)
    (hi : Found isType i) : Found isType (index e i) := by
  refine .of_suffixed fun {ts us e'} hs => ?_
  have hp := hi.parses_of_ends (Nat.zero_le _) (ends_cons (t := .delim .rbracket) (by decide) ts)
  simpa [tokens] using he.suffixed hlevel (.index hp hs)

theorem Found.call {f : Expression} {args : List Expression} (hf : Found isType f)
    (hlevel : 14 ≤ f.level)
    (hargs : ∀ ts, Arguments isType (argTokens args ++ .delim .rparen :: ts) args ts) :
    Found isType (call f args) := by
  refine .of_suffixed fun {ts us e'} hs => ?_
  simpa [tokens] using hf.suffixed hlevel (.call (hargs ts) hs)

theorem Found.choice {c a b : Expression} (hc : Found isType c) (ha : Found isType a)
    (hb : Found isType b) (hg : c.grouped isType) (hleft : Rank.choice.left ≤ c.level)
    (hright : Rank.choice.right ≤ b.level) : Found isType (choice c a b) where
  suffixed h := by simp [level, Rank.choice] at h
  operand h := by simp [level, Rank.choice] at h
  parses {n ts us e'} hn hs hclimbs := by
    rw [Stops] at hs
    have hpa := ha.parses_of_ends (Nat.zero_le _)
      (ends_cons (t := .delim .colon) (by decide) (b.tokens ++ ts))
    have hpb := hb.parses hright hs.2 (.done hs.1)
    have hstops := stops_of_left_le (t := .op "?") rfl
      (a.tokens ++ .delim .colon :: (b.tokens ++ ts)) hg hleft
    have hn' : n ≤ c.level := by
      have hlevel : n ≤ 2 := hn
      have hleft' : 3 ≤ c.level := hleft
      omega
    simpa [tokens] using hc.parses hn' hstops (.choice hn hleft hpa hpb hclimbs)

theorem Found.join {mark : Token} {l r : Expression} (hl : Found isType l) (hr : Found isType r)
    (hg : (join mark l r).grouped isType) : Found isType (.join mark l r) := by
  cases hk : Rank.ofToken? mark with
  | none => simp [grouped, hk] at hg
  | some k =>
    obtain ⟨hleft, hright, hgl, -⟩ := (grouped_join hk l r).1 hg
    have hk' := after?_of_ofToken? hk
    have hbound : k.level < 13 := by
      obtain rfl | rfl | ⟨n, -, hn, rfl⟩ := Rank.ofToken?_cases hk <;> simp
      omega
    have hlevel := level_join hk l r
    refine ⟨fun h => by omega, fun h => by omega, fun {n ts us e'} hn hs hclimbs => ?_⟩
    rw [Stops] at hs
    rw [hlevel] at hn
    have hp := hr.parses hright hs.2 (.done (hs.1 k hk))
    have hstops := stops_of_left_le hk' (r.tokens ++ ts) hgl hleft
    have hn' : n ≤ l.level := Nat.le_trans hn (Nat.le_trans (Rank.level_le_left hk') hleft)
    simpa [tokens] using hl.parses hn' hstops (.join hk hn hleft hp hclimbs)

theorem after?_comma : after? (.delim .comma) = some ⟨0, 0, 1⟩ := by decide

theorem not_continues_comma (e : Expression) (ts : List Token) :
    ¬ Continues 1 e (.delim .comma :: ts) := by
  rintro ⟨t, ht, k, hk, hn, -⟩
  obtain rfl : .delim .comma = t := by simpa using ht
  cases after?_comma.symm.trans hk
  simp at hn

mutual
theorem found : ∀ {e : Expression}, e.grouped isType → Found isType e
  | .atom t, h => .of_suffixed fun hs => .atom (by simpa [grouped] using h) hs
  | .group e, h => by
    simp only [grouped, Bool.and_eq_true, Bool.not_eq_true'] at h
    exact (found h.1).group h.2
  | .index e i, h => by
    simp only [grouped, Bool.and_eq_true, decide_eq_true_eq] at h
    exact (found h.1.2).index h.1.1 (found h.2)
  | .call f args, h => by
    simp only [grouped, Bool.and_eq_true, decide_eq_true_eq] at h
    exact (found h.1.2).call h.1.1 (found_arguments h.2)
  | .member e mark name, h => by
    simp only [grouped, Bool.and_eq_true, decide_eq_true_eq] at h
    refine .of_suffixed fun hs => ?_
    simpa [tokens] using (found h.2).suffixed h.1.2 (.member (by simpa using h.1.1) hs)
  | .stepped e symbol, h => by
    simp only [grouped, Bool.and_eq_true, decide_eq_true_eq] at h
    refine .of_suffixed fun hs => ?_
    simpa [tokens] using (found h.2).suffixed h.1.2 (.stepped (by simpa using h.1.1) hs)
  | .unary symbol e, h => by
    simp only [grouped, Bool.and_eq_true, decide_eq_true_eq] at h
    exact .of_operand rfl fun hts => .unary ((found h.2).operand h.1.2 hts)
  | .cast type e, h => by
    simp only [grouped, Bool.and_eq_true, decide_eq_true_eq] at h
    exact .of_operand rfl fun hts => .cast h.1.1 ((found h.2).operand h.1.2 hts)
  | .choice c a b, h => by
    simp only [grouped, Bool.and_eq_true, decide_eq_true_eq] at h
    obtain ⟨⟨⟨⟨hleft, hright⟩, hc⟩, ha⟩, hb⟩ := h
    exact (found hc).choice (found ha) (found hb) hc hleft hright
  | .join mark l r, h => by
    have hparts : l.grouped isType ∧ r.grouped isType := by
      cases hk : Rank.ofToken? mark with
      | none => simp [grouped, hk] at h
      | some k => exact ((grouped_join hk l r).1 h).2.2
    exact (found hparts.1).join (found hparts.2) h

theorem found_arguments : ∀ {args : List Expression}, argsGrouped isType args → ∀ ts,
    Arguments isType (argTokens args ++ .delim .rparen :: ts) args ts
  | [], _, ts => .nil
  | [e], h, ts => by
    simp only [argsGrouped, Bool.and_eq_true, decide_eq_true_eq] at h
    exact .last ((found h.1.2).parses_of_ends h.1.1 (ends_cons (by decide) ts))
  | e :: e' :: es, h, ts => by
    rw [argsGrouped, Bool.and_eq_true, Bool.and_eq_true, decide_eq_true_eq] at h
    obtain ⟨⟨hlevel, he⟩, hes⟩ := h
    have hmore := found_arguments hes ts
    have hstops := stops_of_left_le after?_comma (argTokens (e' :: es) ++ .delim .rparen :: ts) he
      (Nat.zero_le _)
    have hp := (found he).parses hlevel hstops (.done (not_continues_comma e _))
    simpa [argTokens] using Arguments.more hp hmore
end

/-- Tokens stand for at most one grouped expression. -/
theorem tokens_injective {e' : Expression} (h : e.grouped isType) (h' : e'.grouped isType)
    (ht : e.tokens = e'.tokens) : e = e' := by
  have hends : Ends [] := by intro t ht; cases ht
  have hp := (found h).parses_of_ends (Nat.zero_le _) hends
  have hp' := (found h').parses_of_ends (Nat.zero_le _) hends
  rw [ht] at hp
  exact (hp.unique hp').1

end Expression
end ShaderDialect
