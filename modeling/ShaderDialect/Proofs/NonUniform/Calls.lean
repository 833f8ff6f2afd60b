import ShaderDialect.Emit.Body

/-! The calls of a body that mark an index as differing between invocations, each with the array
that it indexes. -/
namespace ShaderDialect
open NonUniformAccess List

/-- What an opening square bracket indexes: a name, or any other value. -/
inductive Operand
  | name (s : String)
  | value
  deriving Repr, DecidableEq

structure Place where
  /-- The fragments before it in the same list, the nearest one first. -/
  before : List Fragment
  /-- What the brackets that are open index, the innermost one first. A parenthesis belongs to the
  index around it. -/
  brackets : List (Option Operand)

namespace Place
variable (p : Place)

/-- What the position is an index of. -/
def array (p : Place) : Option Operand := p.brackets.headD none

/-- What a square bracket at the position indexes. A name after a dot is a member of a value. -/
def operand (p : Place) : Operand :=
  match p.before with
  | last :: rest =>
    match last.word? with
    | some s => if rest.head?.any (·.isDelimiter .dot) then .value else .name s
    | none => .value
  | [] => .value

/-- The word whose square bracket has just been opened. -/
def opened? (p : Place) : Option String :=
  match p.before with
  | bracket :: word :: _ => if bracket.isDelimiter .lbracket then word.word? else none
  | _ => none

def next (p : Place) (f : Fragment) : Place where
  before := f :: p.before
  brackets :=
    match f.token? with
    | some (.delim .lparen) => p.array :: p.brackets
    | some (.delim .lbracket) => some p.operand :: p.brackets
    | some (.delim .rparen) | some (.delim .rbracket) => p.brackets.tail
    | _ => p.brackets

/-- The start of an argument of a call that is an index of the given array. -/
def argument (array : Option Operand) : Place := ⟨[], [array]⟩

@[simp] theorem before_argument (array : Option Operand) : (argument array).before = [] := rfl

@[simp] theorem before_next (f : Fragment) : (p.next f).before = f :: p.before := rfl

end Place

/-- Nothing is indexed across the fragment. -/
structure Fragment.Divides (f : Fragment) : Prop where
  word : f.word? = none
  bracket : f.isDelimiter .lbracket = false
  dot : f.isDelimiter .dot = false

namespace Place
variable {q : Place}

/-- Calls that follow the two positions index the same. -/
structure Alike (p q : Place) : Prop where
  brackets : p.brackets = q.brackets
  opened : p.opened? = q.opened?
  operand : p.operand = q.operand
  opened_next : ∀ f, (p.next f).opened? = (q.next f).opened?
  operand_next : ∀ f, (p.next f).operand = (q.next f).operand

theorem Alike.array {p : Place} (h : Alike p q) : p.array = q.array := by
  rw [Place.array, h.brackets, Place.array]

theorem Alike.next {p : Place} (h : Alike p q) (f : Fragment) : Alike (p.next f) (q.next f) where
  brackets := by simp [Place.next, h.brackets, h.array, h.operand]
  opened := h.opened_next f
  operand := h.operand_next f
  opened_next _ := rfl
  operand_next _ := rfl

theorem Alike.of_divides {f : Fragment} (h : f.Divides) (p : Place) :
    Alike (p.next f) ⟨[], (p.next f).brackets⟩ where
  brackets := rfl
  opened := by
    cases hb : p.before <;> simp [opened?, hb, h.bracket]
  operand := by simp [Place.operand, h.word]
  opened_next g := by simp [opened?, h.word]
  operand_next g := by simp [Place.operand, h.dot]

end Place

namespace NonUniformAccess

theorem inFragments?_cons (before : List Fragment) (f : Fragment) (fs : List Fragment) :
    inFragments? before (f :: fs) = (inFragment? before f).or (inFragments? (f :: before) fs) := by
  rw [inFragments?]
  cases inFragment? before f <;> rfl

theorem inArguments?_cons (arg : List Fragment) (args : List (List Fragment)) :
    inArguments? (arg :: args) = (inFragments? [] arg).or (inArguments? args) := by
  rw [inArguments?]
  cases inFragments? [] arg <;> rfl

theorem inFragment?_call_of_ne {name : String} (h : name ≠ Writer.nonUniformCall)
    (before : List Fragment) (args : List (List Fragment)) (loc : Loc) :
    inFragment? before (.call name args loc) = inArguments? args := by
  unfold inFragment?
  simp [h]

end NonUniformAccess

/-- What becomes of a call when the fragment that it stands in is written. -/
inductive Use
  | written
  /-- It stands behind the value of a `RETURN`. -/
  | dropped
  /-- It stands in the index of another such call. -/
  | inner
  deriving Repr, DecidableEq

/-- A call that marks its argument as differing between invocations. -/
structure IndexCall where
  use : Use
  /-- What it is an index of, as a whole or in part. -/
  array : Option Operand
  /-- The word whose square bracket it directly follows. -/
  opened : Option String
  args : List (List Fragment)
  loc : Loc

namespace IndexCall
variable {q : Place} (p : Place) {use : Use}

mutual
def inFragment (use : Use) (p : Place) : Fragment → List IndexCall
  | .call name args loc =>
    if name = Writer.nonUniformCall then
      ⟨use, p.array, p.opened?, args, loc⟩ :: inArguments .inner none args
    else inArguments use p.array args
  | .ret [] _ => []
  | .ret (value :: more) _ =>
    inFragments use (.argument none) value ++
      inArguments (if use = .written then .dropped else use) none more
  | _ => []

def inFragments (use : Use) (p : Place) : List Fragment → List IndexCall
  | [] => []
  | f :: fs => inFragment use p f ++ inFragments use (p.next f) fs

def inArguments (use : Use) (array : Option Operand) : List (List Fragment) → List IndexCall
  | [] => []
  | arg :: args => inFragments use (.argument array) arg ++ inArguments use array args
end

/-- A call that is by itself the index of a word, and not part of the index of another such call. -/
def access? (c : IndexCall) : Option NonUniformAccess :=
  if c.use = .inner then none
  else do return ⟨← c.opened, ← c.args.head?, c.loc⟩

theorem access?_inner {c : IndexCall} (h : c.use = .inner) : c.access? = none := by
  simp [access?, h]

mutual
theorem use_eq_of_mem_inFragment {c : IndexCall} (p : Place) (f : Fragment)
    (h : c ∈ inFragment .inner p f) : c.use = .inner := by
  cases f with
  | call name args loc =>
    by_cases hname : name = Writer.nonUniformCall
    · simp only [inFragment, hname, if_true, mem_cons] at h
      rcases h with rfl | h
      · rfl
      · exact use_eq_of_mem_inArguments none args h
    · simp only [inFragment, hname, if_false] at h
      exact use_eq_of_mem_inArguments p.array args h
  | ret args loc =>
    cases args with
    | nil => simp [inFragment] at h
    | cons value more =>
      simp only [inFragment, mem_append] at h
      rcases h with h | h
      · exact use_eq_of_mem_inFragments _ value h
      · exact use_eq_of_mem_inArguments none more (by simpa using h)
  | token t => simp [inFragment] at h
  | initMain loc => simp [inFragment] at h
  | branch cond yes no loc => simp [inFragment] at h

theorem use_eq_of_mem_inFragments {c : IndexCall} (p : Place) (fs : List Fragment)
    (h : c ∈ inFragments .inner p fs) : c.use = .inner := by
  cases fs with
  | nil => simp [inFragments] at h
  | cons f fs =>
    rcases mem_append.1 h with h | h
    · exact use_eq_of_mem_inFragment p f h
    · exact use_eq_of_mem_inFragments (p.next f) fs h

theorem use_eq_of_mem_inArguments {c : IndexCall} (array : Option Operand)
    (args : List (List Fragment)) (h : c ∈ inArguments .inner array args) : c.use = .inner := by
  cases args with
  | nil => simp [inArguments] at h
  | cons arg args =>
    rcases mem_append.1 h with h | h
    · exact use_eq_of_mem_inFragments (.argument array) arg h
    · exact use_eq_of_mem_inArguments array args h
end

theorem findSome?_inner (array : Option Operand) (args : List (List Fragment)) :
    (inArguments .inner array args).findSome? access? = none :=
  findSome?_eq_none_iff.2 fun _ h => access?_inner (use_eq_of_mem_inArguments array args h)

theorem access?_call (huse : use ≠ .inner) (p : Place) (args : List (List Fragment)) (loc : Loc) :
    (IndexCall.mk use p.array p.opened? args loc).access? =
      inFragment? p.before (.call Writer.nonUniformCall args loc) := by
  obtain ⟨before, brackets⟩ := p
  simp only [access?, if_neg huse, inFragment?.eq_def, if_pos, Place.opened?]
  match before, args with
  | [], _ | [_], _ => simp
  | bracket :: word :: _, [] => simp
  | bracket :: word :: _, index :: _ =>
    by_cases hb : bracket.isDelimiter .lbracket <;> cases hw : word.word? <;> simp [hb, hw]

mutual
/-- The search for an access finds the first call that is by itself the index of a word. -/
theorem findSome?_inFragment {use : Use} (huse : use ≠ .inner) (p : Place) (f : Fragment) :
    (inFragment use p f).findSome? access? = inFragment? p.before f := by
  cases f with
  | call name args loc =>
    by_cases hname : name = Writer.nonUniformCall
    · subst hname
      rw [inFragment, if_pos rfl, findSome?_cons, access?_call huse, findSome?_inner]
      split <;> simp_all
    · rw [inFragment, if_neg hname, findSome?_inArguments huse,
        inFragment?_call_of_ne hname]
  | ret args loc =>
    cases args with
    | nil => simp [inFragment, inFragment?, inArguments?]
    | cons value more =>
      have hmore : (if use = .written then .dropped else use) ≠ Use.inner := by
        split <;> simp_all
      rw [inFragment, findSome?_append, findSome?_inFragments huse,
        findSome?_inArguments hmore, inFragment?,
        inArguments?_cons, Place.before_argument]
  | token t => simp [inFragment, inFragment?]
  | initMain loc => simp [inFragment, inFragment?]
  | branch cond yes no loc => simp [inFragment, inFragment?]

theorem findSome?_inFragments {use : Use} (huse : use ≠ .inner) (p : Place) (fs : List Fragment) :
    (inFragments use p fs).findSome? access? = inFragments? p.before fs := by
  cases fs with
  | nil => simp [inFragments, inFragments?]
  | cons f fs =>
    rw [inFragments, findSome?_append, findSome?_inFragment huse,
      findSome?_inFragments huse (p.next f) fs, inFragments?_cons,
      Place.before_next]

theorem findSome?_inArguments {use : Use} (huse : use ≠ .inner) (array : Option Operand)
    (args : List (List Fragment)) :
    (inArguments use array args).findSome? access? = inArguments? args := by
  cases args with
  | nil => simp [inArguments, inArguments?]
  | cons arg args =>
    rw [inArguments, findSome?_append, findSome?_inFragments huse,
      findSome?_inArguments huse, inArguments?_cons, Place.before_argument]
end

theorem inFragment_alike {p : Place} (h : p.Alike q) (f : Fragment) :
    inFragment use p f = inFragment use q f := by
  cases f with
  | ret args loc => cases args <;> simp [inFragment]
  | _ => simp [inFragment, h.array, h.opened]

theorem inFragments_alike {p : Place} (h : p.Alike q) (fs : List Fragment) :
    inFragments use p fs = inFragments use q fs := by
  induction fs generalizing p q with
  | nil => rfl
  | cons f fs ih => rw [inFragments, inFragments, inFragment_alike h, ih (h.next f)]

theorem inFragments_append (fs gs : List Fragment) :
    inFragments use p (fs ++ gs) =
      inFragments use p fs ++ inFragments use (fs.foldl Place.next p) gs := by
  induction fs generalizing p with
  | nil => rfl
  | cons f fs ih => simp [inFragments, ih]

end IndexCall
end ShaderDialect
