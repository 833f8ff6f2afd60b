import ShaderDialect.Emit.Expression
import ShaderDialect.Glsl.Language
import ShaderDialect.Hlsl.Language
import ShaderDialect.Msl.Language
import ShaderDialect.Proofs.Expression.Joining
import ShaderDialect.Proofs.Expression.Unambiguous
import ShaderDialect.Proofs.Success

/-! Intrinsics that a target writes with operators or brackets around the texts of their
arguments: when an argument stays one operand. -/
namespace ShaderDialect
open Scan (token tokens?)

namespace Expression
variable {a b : String} {l r : Expression}

def named (name : String) (args : List Expression) : Expression := call (atom (.word name)) args

/-- The tokens of a text are those of an expression. -/
def Spells (text : String) (e : Expression) : Prop := tokens? text.toList = some e.tokens

theorem Spells.of_eq (h : Spells a l) (he : b.toList = a.toList) : Spells b l := by
  rwa [Spells, he]

theorem Spells.literal {t : Token} (h : token a.toList = some (t, []) ∧
    (a.toList.head?.all fun c => !Text.isBlank c) ∧ (Scan.commentStart a.toList).isSome = false) :
    Spells a (atom t) := Scan.tokens?_eq_singleton h

theorem Spells.append (h : Spells a l) {c : Char} (hc : c ∈ Scan.breaks) (rest : List Char) :
    tokens? (a.toList ++ c :: rest) = (tokens? (c :: rest)).map (l.tokens ++ ·) :=
  Scan.tokens?_append h hc rest

theorem Spells.parenthesized (h : Spells a l) : Spells ("(" ++ a ++ ")") (group l) := by
  simp [Spells, h.append, Expression.tokens]

theorem Spells.indexed (ha : Spells a l) (hb : Spells b r) :
    Spells (a ++ "[" ++ b ++ "]") (index l r) := by
  simp [Spells, ha.append, hb.append, Expression.tokens]

theorem Spells.between {symbol : String} (h : tokens? symbol.toList = some [.op symbol])
    (ha : Spells a l) (hb : Spells b r) :
    Spells (a ++ " " ++ symbol ++ " " ++ b) (join (.op symbol) l r) := by
  have hb' : tokens? b.toList = some r.tokens := hb
  simp [Spells, ha.append, Scan.tokens?_append h, hb', Expression.tokens]

variable {texts : List String} {trees : List Expression}

theorem Spells.arguments (h : List.Forall₂ Spells texts trees) (rest : List Char) :
    tokens? ([',', ' '].intercalate (texts.map String.toList) ++ ')' :: rest) =
      (tokens? rest).map (argTokens trees ++ .delim .rparen :: ·) := by
  induction h with
  | nil => simp [argTokens]
  | cons h hs ih =>
    cases hs with
    | nil => simp [argTokens, h.append, Function.comp_def]
    | cons h' hs => simp_all [argTokens, h.append, Function.comp_def]

theorem Spells.called {name : String} (h : tokens? name.toList = some [.word name])
    (hs : List.Forall₂ Spells texts trees) : Spells (callText name texts) (named name trees) := by
  simp [Spells, callText, Scan.tokens?_append h, Spells.arguments hs, named, Expression.tokens]

/-- The words and operators that intrinsics are written with. -/
theorem tokens?_symbols :
    (∀ word ∈ ["mul", "rcp", "fmod", "saturate", "clamp", "trunc", "transpose"],
      tokens? word.toList = some [.word word]) ∧
    (∀ symbol ∈ ["*", "/", "-"], tokens? symbol.toList = some [.op symbol]) := by
  refine ⟨?_, ?_⟩ <;> intro s hs <;> refine Scan.tokens?_eq_singleton ?_ <;> revert s <;> decide

theorem Spells.product (ha : Spells a l) (hb : Spells b r) :
    Spells s!"({a} * {b})" (group (join (.op "*") l r)) :=
  (ha.between (tokens?_symbols.2 "*" (by decide)) hb).parenthesized.of_eq (by simp [toString])

theorem Spells.reciprocal (h : Spells a l) :
    Spells (Spellings.reciprocal.apply [a]) (group (join (.op "/") (atom (.float "1.0")) l)) := by
  have hone : Spells "1.0" (atom (.float "1.0")) := .literal (by decide)
  refine (hone.between (tokens?_symbols.2 "/" (by decide)) h).parenthesized.of_eq ?_
  simp [Spellings.reciprocal, Spelling.apply]

theorem Spells.remainder (ha : Spells a l) (hb : Spells b r) :
    Spells (Spellings.remainder.apply [a, b])
      (group (join (.op "-") l (join (.op "*") r (named "trunc" [join (.op "/") l r])))) := by
  have hquotient := ha.between (tokens?_symbols.2 "/" (by decide)) hb
  have htrunc := Spells.called (tokens?_symbols.1 "trunc" (by decide)) (.cons hquotient .nil)
  have hproduct := hb.between (tokens?_symbols.2 "*" (by decide)) htrunc
  refine (ha.between (tokens?_symbols.2 "-" (by decide)) hproduct).parenthesized.of_eq ?_
  simp [Spellings.remainder, Spelling.apply, callText]

theorem Spells.clamp (h : Spells a l) :
    Spells ((Spelling.form [.text "clamp(", .arg 0, .text ", 0.0, 1.0)"]).apply [a])
      (named "clamp" [l, atom (.float "0.0"), atom (.float "1.0")]) := by
  have hzero : Spells "0.0" (atom (.float "0.0")) := .literal (by decide)
  have hone : Spells "1.0" (atom (.float "1.0")) := .literal (by decide)
  refine (Spells.called (tokens?_symbols.1 "clamp" (by decide))
    (.cons h (.cons hzero (.cons hone .nil)))).of_eq ?_
  simp [Spelling.apply, callText]

theorem Spells.transposed (ha : Spells a l) (hb : Spells b r) :
    Spells s!"transpose({a})[{b}]" (index (named "transpose" [l]) r) := by
  have hcall := Spells.called (tokens?_symbols.1 "transpose" (by decide)) (.cons ha .nil)
  exact (hcall.indexed hb).of_eq (by simp [toString, callText])

/-- The text is an expression and `e` is its tree. -/
structure Reads (isType : String → Bool) (text : String) (e : Expression) : Prop where
  spells : Spells text e
  grouped : e.grouped isType

theorem Reads.unique {isType : String → Bool} (h : Reads isType a l) (h' : Reads isType a r) :
    l = r :=
  tokens_injective h.grouped h'.grouped (Option.some.inj (h.spells.symm.trans h'.spells))

end Expression

open Expression

/-- The intrinsics that stand for an operation on numbers, vectors or matrices. -/
inductive Operation
  | mul | rcp | fmod | saturate | getCol | getRow | getElem
  deriving Repr, DecidableEq

namespace Operation

def name : Operation → String
  | mul => "mul"
  | rcp => "rcp"
  | fmod => "fmod"
  | saturate => "saturate"
  | getCol => "getCol"
  | getRow => "getRow"
  | getElem => "getElem"

def intrinsic : Operation → Intrinsic
  | mul => .mul
  | rcp => .respelled ⟨.name "rcp", Spellings.reciprocal, Spellings.reciprocal⟩
  | fmod => .respelled ⟨.name "fmod", Spellings.remainder, .name "fmod"⟩
  | saturate =>
    .respelled ⟨.name "saturate", .form [.text "clamp(", .arg 0, .text ", 0.0, 1.0)"],
      .name "saturate"⟩
  | getCol => .getCol
  | getRow => .getRow
  | getElem => .getElem

theorem ofName?_name (op : Operation) : Intrinsic.ofName? op.name = some op.intrinsic := by
  cases op <;> decide

/-- The tree that a target has for the operation on these operands. -/
def tree? (target : Target) : Operation → List Expression → Option Expression
  | mul, [a, b] =>
    some (if target = .direct3d12 then named "mul" [a, b] else group (join (.op "*") a b))
  | rcp, [a] =>
    some (if target = .direct3d12 then named "rcp" [a]
      else group (join (.op "/") (atom (.float "1.0")) a))
  | fmod, [a, b] =>
    some (if target = .vulkan then
        group (join (.op "-") a (join (.op "*") b (named "trunc" [join (.op "/") a b])))
      else named "fmod" [a, b])
  | saturate, [a] =>
    some (if target = .vulkan then named "clamp" [a, atom (.float "0.0"), atom (.float "1.0")]
      else named "saturate" [a])
  | getCol, [m, i] =>
    some (if target = .direct3d12 then index (named "transpose" [m]) i else index m i)
  | getRow, [m, i] =>
    some (if target = .direct3d12 then index m i else index (named "transpose" [m]) i)
  | getElem, [m, i, j] =>
    some (if target = .direct3d12 then index (index m j) i else index (index m i) j)
  | _, _ => none

/-- How tightly each argument has to bind to be one operand of that tree. -/
def places (target : Target) : Operation → List Nat
  | mul => if target = .direct3d12 then [1, 1] else [12, 13]
  | rcp => if target = .direct3d12 then [1] else [13]
  | fmod => if target = .vulkan then [12, 13] else [1, 1]
  | saturate => [1]
  | getCol => if target = .direct3d12 then [1, 0] else [14, 0]
  | getRow => if target = .direct3d12 then [14, 0] else [1, 0]
  | getElem => [14, 0, 0]

end Operation

/-- The language that bodies for a target are written in; the flag is the target's own option. -/
def Target.language (option : Bool) : Target → Language
  | .direct3d12 => Hlsl.language
  | .vulkan => Glsl.language option
  | .metal => Msl.language option

namespace Operation
variable {isType : String → Bool} {op : Operation} {trees : List Expression} {tree : Expression}

theorem rank_times : Rank.ofToken? (.op "*") = some ⟨12, 12, 13⟩ := by decide

theorem rank_over : Rank.ofToken? (.op "/") = some ⟨12, 12, 13⟩ := by decide

theorem rank_minus : Rank.ofToken? (.op "-") = some ⟨11, 11, 12⟩ := by decide

/-- The tree is what its tokens stand for when every operand binds tightly enough for its place. -/
theorem grouped_iff {target : Target} (htree : op.tree? target trees = some tree)
    (htrees : ∀ e ∈ trees, e.grouped isType) :
    tree.grouped isType ↔
      List.Forall₂ (fun n (e : Expression) => n ≤ e.level) (op.places target) trees := by
  unfold tree? at htree
  split at htree
  case h_8 => simp at htree
  all_goals
    cases htree
    simp only [List.forall_mem_cons, List.not_mem_nil, false_imp_iff, implies_true, and_true]
      at htrees
    cases target <;>
      simp [places, named, grouped, argsGrouped, isAtom, isTypeName, rank_times, rank_over,
        rank_minus, level_join rank_times, level_join rank_over, htrees]
  -- the remainder has each argument twice
  case h_3 => omega

end Operation

namespace Writer
variable {loopIndex : Option String} {args : List (List Fragment)} {w : Writer} {op : Operation}
  {texts : List String}

theorem call_eq (hhelper : w.unit.helper? op.name = none)
    (haccepts : op.intrinsic.accepts texts.length) (source : List (List Fragment)) (loc : Loc) :
    w.call op.name source texts loc =
      w.intrinsic ⟨w.unit, op.name, op.intrinsic, texts, source, loc⟩ := by
  simp [call, hhelper, op.ofName?_name, haccepts]

/-- The tokens of a call are those of the target's tree for it. -/
theorem call_spells (u : ShaderUnit) (option : Bool) (role : Role) {trees : List Expression}
    {tree : Expression} (source : List (List Fragment)) (loc : Loc) (h : u.helper? op.name = none)
    (htexts : List.Forall₂ Spells texts trees) (htree : op.tree? u.target trees = some tree) :
    ∃ text, Writer.call ⟨u.target.language option, u, role⟩ op.name source texts loc = .ok text ∧
      Spells text tree := by
  unfold Operation.tree? at htree
  split at htree
  case h_8 => simp at htree
  all_goals cases htree
  case h_1 =>
    obtain _ | ⟨ha, _ | ⟨hb, ⟨⟩⟩⟩ := htexts
    rw [call_eq h (by rfl)]
    refine ⟨_, rfl, ?_⟩
    cases u.target with
    | direct3d12 =>
      have hcall := Spells.called (tokens?_symbols.1 "mul" (by decide)) (.cons ha (.cons hb .nil))
      exact hcall.of_eq (by simp [toString, callText])
    | vulkan | metal => exact ha.product hb
  case h_2 =>
    obtain _ | ⟨ha, ⟨⟩⟩ := htexts
    rw [call_eq h (by rfl)]
    refine ⟨_, rfl, ?_⟩
    cases u.target with
    | direct3d12 => exact Spells.called (tokens?_symbols.1 "rcp" (by decide)) (.cons ha .nil)
    | vulkan | metal => exact ha.reciprocal
  case h_3 =>
    obtain _ | ⟨ha, _ | ⟨hb, ⟨⟩⟩⟩ := htexts
    rw [call_eq h (by rfl)]
    refine ⟨_, rfl, ?_⟩
    cases u.target with
    | vulkan => exact ha.remainder hb
    | direct3d12 | metal =>
      exact Spells.called (tokens?_symbols.1 "fmod" (by decide)) (.cons ha (.cons hb .nil))
  case h_4 =>
    obtain _ | ⟨ha, ⟨⟩⟩ := htexts
    rw [call_eq h (by rfl)]
    refine ⟨_, rfl, ?_⟩
    cases u.target with
    | vulkan => exact ha.clamp
    | direct3d12 | metal =>
      exact Spells.called (tokens?_symbols.1 "saturate" (by decide)) (.cons ha .nil)
  case h_5 =>
    obtain _ | ⟨ha, _ | ⟨hb, ⟨⟩⟩⟩ := htexts
    rw [call_eq h (by rfl)]
    refine ⟨_, rfl, ?_⟩
    cases u.target with
    | direct3d12 => exact ha.transposed hb
    | vulkan | metal => exact ha.indexed hb
  case h_6 =>
    obtain _ | ⟨ha, _ | ⟨hb, ⟨⟩⟩⟩ := htexts
    rw [call_eq h (by rfl)]
    refine ⟨_, rfl, ?_⟩
    cases u.target with
    | direct3d12 => exact ha.indexed hb
    | vulkan | metal => exact ha.transposed hb
  case h_7 =>
    obtain _ | ⟨ha, _ | ⟨hb, _ | ⟨hc, ⟨⟩⟩⟩⟩ := htexts
    rw [call_eq h (by rfl)]
    refine ⟨_, rfl, ?_⟩
    cases u.target with
    | direct3d12 =>
      exact ((ha.indexed hc).indexed hb).of_eq (by simp [toString, Target.language, Hlsl.language])
    | vulkan =>
      exact ((ha.indexed hb).indexed hc).of_eq (by simp [toString, Target.language, Glsl.language])
    | metal =>
      exact ((ha.indexed hb).indexed hc).of_eq (by simp [toString, Target.language, Msl.language])

theorem fragment_named {name : String} (hname : name ≠ nonUniformCall)
    (hargs : w.arguments loopIndex args = .ok texts) (afterDot : Bool) (loc : Loc) :
    w.fragment loopIndex afterDot (.call name args loc) =
      (w.call name args texts loc).map fun text => [.word text] := by
  have hother : (name == nonUniformCall) = false := beq_eq_false_iff_ne.2 hname
  cases hcall : w.call name args texts loc <;> cases loopIndex <;>
    simp [fragment, hother, hargs, hcall, bind, Except.bind, Except.map]

theorem fragment_call (hargs : w.arguments loopIndex args = .ok texts) (afterDot : Bool)
    (loc : Loc) : w.fragment loopIndex afterDot (.call op.name args loc) =
      (w.call op.name args texts loc).map fun text => [.word text] :=
  fragment_named (by cases op <;> decide) hargs afterDot loc

/-- A call whose arguments are written as expressions is written as the target's tree for it, with
each argument as one operand, exactly if every argument binds tightly enough for its place. -/
theorem fragment_reads_iff {isType : String → Bool} (u : ShaderUnit) (option : Bool) (role : Role)
    (loopIndex : Option String) (afterDot : Bool) (loc : Loc) {op : Operation}
    {args : List (List Fragment)} {texts : List String} {trees : List Expression}
    {tree : Expression} (hhelper : u.helper? op.name = none)
    (hargs : Writer.arguments ⟨u.target.language option, u, role⟩ loopIndex args = .ok texts)
    (hreads : List.Forall₂ (Reads isType) texts trees)
    (htree : op.tree? u.target trees = some tree) :
    ∃ text, Writer.fragment ⟨u.target.language option, u, role⟩ loopIndex afterDot
        (.call op.name args loc) = .ok [.word text] ∧
      ((∀ e, Reads isType text e ↔ e = tree) ↔
        List.Forall₂ (fun n (e : Expression) => n ≤ e.level) (op.places u.target) trees) := by
  have hspells : List.Forall₂ Spells texts trees := hreads.imp fun _ _ h => h.spells
  have hgrouped : ∀ e ∈ trees, e.grouped isType := by
    intro e he
    obtain ⟨i, hi, rfl⟩ := List.getElem_of_mem he
    exact (hreads.get (by rw [hreads.length_eq]; exact hi) hi).grouped
  obtain ⟨text, hcall, htext⟩ := call_spells u option role args loc hhelper hspells htree
  refine ⟨text, by rw [fragment_call hargs, hcall]; rfl, ?_⟩
  rw [← Operation.grouped_iff htree hgrouped]
  constructor
  · intro h
    exact ((h tree).2 rfl).grouped
  · intro hg e
    have hr : Reads isType text tree := ⟨htext, hg⟩
    exact ⟨fun he => he.unique hr, fun he => he ▸ hr⟩

def bareUnit (target : Target) : ShaderUnit :=
  { name := "one", stage := .compute, features := .empty, target, structs := [], globals := [],
    helpers := [], entry := ⟨⟨"main", .void, [], [], ⟨"one.fsl", 1⟩⟩, [], []⟩, interface := default,
    threads := some ⟨1, 1, 1⟩, compared := [], table := none }

def sumAndFactor : List (List Fragment) :=
  let token (t : Token) : Fragment := .token ⟨t, ⟨"one.fsl", 9⟩⟩
  [[token (.word "a"), token (.op "+"), token (.word "b")], [token (.word "c")]]

def sum : Expression := join (.op "+") (atom (.word "a")) (atom (.word "b"))

theorem reads_sumAndFactor :
    List.Forall₂ (Reads fun _ => false) ["a + b", "c"] [sum, atom (.word "c")] := by
  have ha : Spells "a" (atom (.word "a")) := .literal (by decide)
  have hb : Spells "b" (atom (.word "b")) := .literal (by decide)
  have hc : Spells "c" (atom (.word "c")) := .literal (by decide)
  have hplus : tokens? "+".toList = some [.op "+"] := Scan.tokens?_eq_singleton (by decide)
  exact .cons ⟨ha.between hplus hb, by decide⟩ (.cons ⟨hc, by decide⟩ .nil)

/-- A sum as a factor is one operand in a call, and falls apart next to an operator. -/
theorem fragment_reads_iff_sumAndFactor :
    let fragment (target : Target) := Writer.fragment
      ⟨target.language true, bareUnit target, .entry⟩ none false
      (.call "mul" sumAndFactor ⟨"one.fsl", 9⟩)
    (fragment .direct3d12 = .ok [.word "mul(a + b, c)"] ∧
      ∀ e, Reads (fun _ => false) "mul(a + b, c)" e ↔ e = named "mul" [sum, atom (.word "c")]) ∧
    (fragment .vulkan = .ok [.word "(a + b * c)"] ∧
      ¬ ∀ e, Reads (fun _ => false) "(a + b * c)" e ↔
        e = group (join (.op "*") sum (atom (.word "c")))) := by
  intro fragment
  constructor
  · have hargs : Writer.arguments ⟨Hlsl.language, bareUnit .direct3d12, .entry⟩ none sumAndFactor =
        .ok ["a + b", "c"] := by cbv
    obtain ⟨text, hf, hiff⟩ := @fragment_reads_iff _ (bareUnit .direct3d12) true .entry none false
      ⟨"one.fsl", 9⟩ .mul _ _ _ _ rfl hargs reads_sumAndFactor rfl
    have hd : fragment .direct3d12 = .ok [.word "mul(a + b, c)"] := by cbv
    obtain rfl : text = "mul(a + b, c)" := by simpa using hf.symm.trans hd
    exact ⟨hd, hiff.2 (.cons (by decide) (.cons (by decide) .nil))⟩
  · have hargs : Writer.arguments ⟨Glsl.language true, bareUnit .vulkan, .entry⟩ none sumAndFactor =
        .ok ["a + b", "c"] := by cbv
    obtain ⟨text, hf, hiff⟩ := @fragment_reads_iff _ (bareUnit .vulkan) true .entry none false
      ⟨"one.fsl", 9⟩ .mul _ _ _ _ rfl hargs reads_sumAndFactor rfl
    have hv : fragment .vulkan = .ok [.word "(a + b * c)"] := by cbv
    obtain rfl : text = "(a + b * c)" := by simpa using hf.symm.trans hv
    refine ⟨hv, fun h => ?_⟩
    -- the sum is on the level of `+`, and a factor has to be on that of `*`
    obtain _ | ⟨hsum, -⟩ := hiff.1 h
    exact absurd hsum (by decide)

end Writer
end ShaderDialect
