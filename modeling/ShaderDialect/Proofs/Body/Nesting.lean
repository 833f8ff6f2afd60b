import ShaderDialect.Proofs.Program.Grammar

/-! Brackets in bodies. Each list of fragments, be it a body, a branch or an argument, is read with
a count of the brackets that are open in it. What the count says about the brackets of a body in one
configuration, and what it does not. -/
namespace ShaderDialect
open List

namespace Delimiter
variable {α : Type} {k : Nat}

def closing? : Delimiter → Option Delimiter
  | lparen => some rparen
  | lbracket => some rbracket
  | lbrace => some rbrace
  | _ => none

def isBracket (d : Delimiter) : Bool := d.opens || d.closes

/-- Every bracket is closed by one of its kind, and inside of it every other one is. -/
inductive Nested : List Delimiter → Prop
  | nil : Nested []
  | wrap {o c : Delimiter} {ds es : List Delimiter} : o.closing? = some c → Nested ds → Nested es →
      Nested (o :: (ds ++ c :: es))

/-- The open brackets after one more, the last one first. -/
def openAfter? (open_ : List Delimiter) (d : Delimiter) : Option (List Delimiter) :=
  if d.opens then some (d :: open_)
  else match open_ with
    | [] => none
    | o :: rest => if o.closing? = some d then some rest else none

/-- The number of open brackets after one more, of whichever kind. -/
def depthAfter? (depth : Nat) (d : Delimiter) : Option Nat :=
  if d.opens then some (depth + 1) else if depth = 0 then none else some (depth - 1)

section
variable {d o c : Delimiter} {ds es low open_ open' : List Delimiter} {n n' m : Nat}

theorem opens_of_closing? (h : o.closing? = some c) : o.opens = true ∧ c.opens = false := by
  cases o <;> cases h <;> exact ⟨rfl, rfl⟩

theorem openAfter?_eq_some : openAfter? open_ d = some open' ↔
    (d.opens ∧ open' = d :: open_) ∨ ∃ o, o.closing? = some d ∧ open_ = o :: open' := by
  unfold openAfter?
  split
  · next hopens =>
    have hno : ∀ o, Delimiter.closing? o ≠ some d := fun o ho => by
      simp [(opens_of_closing? ho).2] at hopens
    simp [hopens, hno, eq_comm]
  · next hopens =>
    cases open_ with
    | nil => simp [hopens]
    | cons o rest => by_cases ho : o.closing? = some d <;> simp [hopens, ho]

theorem depthAfter?_eq_some : depthAfter? n d = some n' ↔
    (d.opens ∧ n' = n + 1) ∨ (d.opens = false ∧ n = n' + 1) := by
  unfold depthAfter?
  split
  · next hopens => simp [hopens, eq_comm]
  · next hopens => cases n <;> simp [hopens, eq_comm]

/-- What one step does to the image of a state, a run does. -/
theorem foldlM_image {β γ : Type} {f : β → α → Option β} {g : γ → α → Option γ} (image : β → γ)
    (hstep : ∀ {b a b'}, f b a = some b' → g (image b) a = some (image b')) {l : List α} {b b' : β}
    (h : l.foldlM f b = some b') : l.foldlM g (image b) = some (image b') := by
  induction l generalizing b with
  | nil =>
    cases h
    rfl
  | cons a l ih =>
    rw [foldlM_cons] at h ⊢
    obtain ⟨b₁, hfirst, hmore⟩ := Option.bind_eq_some_iff.1 h
    exact Option.bind_eq_some_iff.2 ⟨image b₁, hstep hfirst, ih hmore⟩

/-- Brackets that stay open are below the others and change nothing. -/
theorem openAfter?_append (h : ds.foldlM openAfter? open_ = some open') (low : List Delimiter) :
    ds.foldlM openAfter? (open_ ++ low) = some (open' ++ low) := by
  refine foldlM_image (· ++ low) (fun hfirst => ?_) h
  rcases openAfter?_eq_some.1 hfirst with ⟨hopens, rfl⟩ | ⟨o, ho, rfl⟩
  · exact openAfter?_eq_some.2 (.inl ⟨hopens, rfl⟩)
  · exact openAfter?_eq_some.2 (.inr ⟨o, ho, rfl⟩)

theorem depthAfter?_add (h : ds.foldlM depthAfter? n = some n') (m : Nat) :
    ds.foldlM depthAfter? (n + m) = some (n' + m) := by
  refine foldlM_image (· + m) (fun hfirst => ?_) h
  rw [depthAfter?_eq_some] at hfirst ⊢
  exact hfirst.imp (fun h => ⟨h.1, by omega⟩) (fun h => ⟨h.1, by omega⟩)

/-- The depth is the number of open brackets. -/
theorem depthAfter?_of_openAfter? (h : ds.foldlM openAfter? open_ = some open') :
    ds.foldlM depthAfter? open_.length = some open'.length := by
  refine foldlM_image List.length (fun hfirst => ?_) h
  rcases openAfter?_eq_some.1 hfirst with ⟨hopens, rfl⟩ | ⟨o, ho, rfl⟩
  · exact depthAfter?_eq_some.2 (.inl ⟨hopens, rfl⟩)
  · exact depthAfter?_eq_some.2 (.inr ⟨(opens_of_closing? ho).2, rfl⟩)

/-- Brackets that close no more than they open leave alone what is open before them. -/
theorem openAfter?_eq_append (hdepth : ds.foldlM depthAfter? open_.length = some n)
    (h : ds.foldlM openAfter? (open_ ++ low) = some open') :
    ∃ top, open' = top ++ low ∧ top.length = n ∧ ds.foldlM openAfter? open_ = some top := by
  induction ds generalizing open_ with
  | nil =>
    cases h
    exact ⟨open_, rfl, Option.some.inj hdepth, rfl⟩
  | cons d ds ih =>
    rw [foldlM_cons] at h hdepth
    obtain ⟨n₁, hn₁, hdepth⟩ := Option.bind_eq_some_iff.1 hdepth
    obtain ⟨open₁, hfirst, hmore⟩ := Option.bind_eq_some_iff.1 h
    -- The first bracket acts on the upper part of what is open, since it does not go below it.
    obtain ⟨top₁, rfl, hstep, rfl⟩ : ∃ top₁, open₁ = top₁ ++ low ∧
        openAfter? open_ d = some top₁ ∧ n₁ = top₁.length := by
      rcases openAfter?_eq_some.1 hfirst with ⟨hopens, rfl⟩ | ⟨o, ho, hopen⟩
      · refine ⟨d :: open_, rfl, openAfter?_eq_some.2 (.inl ⟨hopens, rfl⟩), ?_⟩
        simpa [depthAfter?_eq_some, hopens] using hn₁
      · cases open_ with
        | nil => simp [depthAfter?_eq_some, (opens_of_closing? ho).2] at hn₁
        | cons o' rest =>
          obtain ⟨rfl, rfl⟩ := List.cons.inj hopen
          refine ⟨rest, rfl, openAfter?_eq_some.2 (.inr ⟨o', ho, rfl⟩), ?_⟩
          rw [depthAfter?_eq_some, (opens_of_closing? ho).2] at hn₁
          simpa [eq_comm] using hn₁
    obtain ⟨top, rfl, hlength, htop⟩ := ih hdepth hmore
    refine ⟨top, rfl, hlength, ?_⟩
    rw [foldlM_cons]
    exact Option.bind_eq_some_iff.2 ⟨_, hstep, htop⟩

/-- Brackets that close others which are open, and nest apart from that. -/
def Closes : List Delimiter → List Delimiter → Prop
  | [], ds => Nested ds
  | o :: low, ds => ∃ c es fs, ds = es ++ c :: fs ∧ o.closing? = some c ∧ Nested es ∧ Closes low fs

theorem Closes.cons_of_opens (h : Closes (d :: open_) ds) : Closes open_ (d :: ds) := by
  obtain ⟨c, es, fs, rfl, hc, hes, hfs⟩ := h
  cases open_ with
  | nil => exact .wrap hc hes hfs
  | cons o low =>
    obtain ⟨c', es', fs', rfl, hc', hes', hfs'⟩ := hfs
    exact ⟨c', d :: (es ++ c :: es'), fs', by simp, hc', .wrap hc hes hes', hfs'⟩

theorem closes_of_openAfter? (h : ds.foldlM openAfter? open_ = some []) : Closes open_ ds := by
  induction ds generalizing open_ with
  | nil =>
    obtain rfl : open_ = [] := Option.some.inj h
    exact Nested.nil
  | cons d ds ih =>
    rw [foldlM_cons] at h
    obtain ⟨open₁, hfirst, hmore⟩ := Option.bind_eq_some_iff.1 h
    rcases openAfter?_eq_some.1 hfirst with ⟨-, rfl⟩ | ⟨o, ho, rfl⟩
    · exact (ih hmore).cons_of_opens
    · exact ⟨d, [], ds, rfl, ho, .nil, ih hmore⟩

theorem Nested.openAfter? (h : Nested ds) : ds.foldlM openAfter? [] = some [] := by
  induction h with
  | nil => rfl
  | @wrap o c ds es hc _ _ ihd ihe =>
    have hinner : ds.foldlM Delimiter.openAfter? [o] = some [o] := openAfter?_append ihd [o]
    have hopen : Delimiter.openAfter? [] o = some [o] :=
      openAfter?_eq_some.2 (.inl ⟨(opens_of_closing? hc).1, rfl⟩)
    have hclose : Delimiter.openAfter? [o] c = some [] := openAfter?_eq_some.2 (.inr ⟨o, hc, rfl⟩)
    simp only [foldlM_cons, foldlM_append, hopen, hinner, hclose, ihe, Option.bind_eq_bind,
      Option.bind_some]

theorem nested_iff : Nested ds ↔ ds.foldlM openAfter? [] = some [] :=
  ⟨Nested.openAfter?, closes_of_openAfter?⟩

instance : Decidable (Nested ds) := decidable_of_iff _ nested_iff.symm

/-- Nested brackets can be left out. -/
theorem Nested.foldlM_append (h : Nested ds) (es open_ : List Delimiter) :
    (ds ++ es).foldlM Delimiter.openAfter? open_ = es.foldlM Delimiter.openAfter? open_ := by
  have hds := openAfter?_append h.openAfter? open_
  rw [nil_append] at hds
  rw [List.foldlM_append, hds]
  rfl

/-- Brackets that leave none open, and that stand among others which nest, nest themselves. -/
theorem nested_of_depthAfter? (hdepth : ds.foldlM depthAfter? 0 = some 0)
    (h : ds.foldlM openAfter? open_ = some open') : Nested ds := by
  have hzero : ds.foldlM depthAfter? ([] : List Delimiter).length = some 0 := hdepth
  obtain ⟨top, -, hlength, htop⟩ := openAfter?_eq_append hzero h
  obtain rfl := length_eq_zero_iff.1 hlength
  exact nested_iff.2 htop

theorem Nested.append (hds : Nested ds) (hes : Nested es) : Nested (ds ++ es) := by
  rw [nested_iff, hds.foldlM_append]
  exact hes.openAfter?

theorem Nested.flatMap {l : List α} {f : α → List Delimiter} (h : ∀ a ∈ l, Nested (f a)) :
    Nested (l.flatMap f) := by
  induction l with
  | nil => exact .nil
  | cons a l ih =>
    rw [forall_mem_cons] at h
    exact h.1.append (ih h.2)

/-- What the first part leaves open stays open over the second. -/
theorem depthAfter?_parts (hds : ds.foldlM depthAfter? 0 = some k)
    (hes : es.foldlM depthAfter? n = some m) : (ds ++ es).foldlM depthAfter? n = some (m + k) := by
  have hfirst := depthAfter?_add hds n
  rw [Nat.zero_add, Nat.add_comm] at hfirst
  rw [foldlM_append, hfirst]
  exact depthAfter?_add hes k

/-- Of two parts that close no more than they open, and that leave together no more open than the
second one has to, the first one nests, and can be left out. -/
theorem nested_left (hds : ds.foldlM depthAfter? 0 = some k)
    (hes : es.foldlM depthAfter? n = some m) (hm : n' ≤ m)
    (hdepth : (ds ++ es).foldlM depthAfter? n = some n')
    (hopen : (ds ++ es).foldlM openAfter? open_ = some open') :
    Nested ds ∧ es.foldlM depthAfter? n = some n' ∧ es.foldlM openAfter? open_ = some open' := by
  obtain rfl : n' = m + k := Option.some.inj (hdepth.symm.trans (depthAfter?_parts hds hes))
  obtain rfl : k = 0 := by omega
  obtain ⟨open₁, hopen₁, -⟩ : ∃ open₁, ds.foldlM openAfter? open_ = some open₁ ∧ _ := by
    rw [foldlM_append] at hopen
    exact Option.bind_eq_some_iff.1 hopen
  have hnested := nested_of_depthAfter? hds hopen₁
  exact ⟨hnested, hes, (hnested.foldlM_append es open_).symm.trans hopen⟩

theorem countP_closes_le (h : ds.foldlM depthAfter? n = some n') :
    ds.countP closes ≤ ds.countP opens + n := by
  induction ds generalizing n with
  | nil => simp
  | cons d ds ih =>
    rw [foldlM_cons] at h
    obtain ⟨n₁, hfirst, hmore⟩ := Option.bind_eq_some_iff.1 h
    have hle := ih hmore
    rw [countP_cons, countP_cons]
    rcases depthAfter?_eq_some.1 hfirst with ⟨hopens, rfl⟩ | ⟨hopens, rfl⟩
    · have hcloses : d.closes = false := by cases d <;> first | rfl | cases hopens
      simp only [hopens, hcloses, if_true, Bool.false_eq_true, if_false]
      omega
    · split <;> omega

end
end Delimiter

def Token.bracket? : Token → Option Delimiter
  | delim d => if d.isBracket then some d else none
  | _ => none

namespace Fragment
open Delimiter
variable (t : Placed) (cond : Condition) (yes no : List Fragment) (loc : Loc)

def Mark.bracket? : Mark → Option Delimiter
  | .token t => t.bracket?
  | .end? => none

/-- The brackets of fragments without branches, those around arguments among them. -/
def brackets (fs : List Fragment) : List Delimiter := (marksList fs).filterMap Mark.bracket?

/-- The brackets that a list of fragments has itself, not in an argument or a branch. -/
def ownBrackets (fs : List Fragment) : List Delimiter :=
  fs.filterMap fun f => f.token?.bind Token.bracket?

mutual
/-- The arguments and branches inside a fragment that remain when exactly the given symbols are
defined. -/
def selectedParts (defined : String → Bool) : Fragment → List (List Fragment)
  | token _ | initMain _ => []
  | call _ args _ | ret args _ => selectedPartsArgs defined args
  | branch cond yes no _ =>
    if cond.eval defined then yes :: selectedPartsList defined yes
    else no :: selectedPartsList defined no

def selectedPartsList (defined : String → Bool) : List Fragment → List (List Fragment)
  | [] => []
  | f :: fs => f.selectedParts defined ++ selectedPartsList defined fs

def selectedPartsArgs (defined : String → Bool) : List (List Fragment) → List (List Fragment)
  | [] => []
  | arg :: args => arg :: (selectedPartsList defined arg ++ selectedPartsArgs defined args)
end

def args? : Fragment → Option (List (List Fragment))
  | call _ args _ | ret args _ => some args
  | _ => none

/-- Fragments as they are read where some brackets are open, and how many are open after them. A
list never closes a bracket that it has not opened. An argument leaves none open, but a branch
may. -/
inductive Leaves : Nat → List Fragment → Nat → Prop
  | nil {n : Nat} : Leaves n [] n
  | token {t : Placed} {fs : List Fragment} {n n₁ n' : Nat} :
      Reader.bracketsAfter? n t.token = some n₁ → Leaves n₁ fs n' → Leaves n (.token t :: fs) n'
  | initMain {loc : Loc} {fs : List Fragment} {n n' : Nat} :
      Leaves n fs n' → Leaves n (.initMain loc :: fs) n'
  | call {f : Fragment} {args : List (List Fragment)} {fs : List Fragment} {n n' : Nat} :
      f.args? = some args → (∀ arg ∈ args, Leaves 0 arg 0) → Leaves n fs n' → Leaves n (f :: fs) n'
  | branch {cond : Condition} {yes no : List Fragment} {loc : Loc} {fs : List Fragment}
      {n n' a b : Nat} : Leaves 0 yes a → Leaves 0 no b → Leaves n fs n' →
      Leaves n (.branch cond yes no loc :: fs) n'

section
variable {defined : String → Bool} {fs : List Fragment} {args : List (List Fragment)}
  {open_ open' : List Delimiter} {n n' : Nat} {f : Fragment} {ds : List Delimiter}

/-- The brackets of what remains of some fragments. -/
def kept (defined : String → Bool) (fs : List Fragment) : List Delimiter :=
  brackets (selectList defined fs)

theorem kept_token :
    kept defined (.token t :: fs) = t.token.bracket?.toList ++ kept defined fs := by
  cases h : t.token.bracket? <;>
    simp [kept, brackets, selectList, select, marksList, marks, Mark.bracket?, h]

theorem kept_initMain : kept defined (.initMain loc :: fs) = kept defined fs := by
  simp [kept, brackets, selectList, select, marksList, marks, filterMap_cons, Mark.bracket?,
    Token.bracket?, isBracket, opens, closes]

theorem bracket?_marksArgs : (marksArgs args).filterMap Mark.bracket? = args.flatMap brackets := by
  have hmore (args : List (List Fragment)) :
      (marksMore args).filterMap Mark.bracket? = args.flatMap brackets := by
    induction args with
    | nil => rfl
    | cons arg args ih =>
      simp [marksMore, ih, Mark.bracket?, Token.bracket?, isBracket, opens, closes, brackets]
  cases args with
  | nil => rfl
  | cons arg args => simp [marksArgs, hmore, brackets]

theorem selectArgs_eq_map : selectArgs defined args = args.map (selectList defined) := by
  induction args with
  | nil => rfl
  | cons arg args ih => rw [selectArgs, ih, map_cons]

theorem bracket?_marksArgs_selectArgs :
    (marksArgs (selectArgs defined args)).filterMap Mark.bracket? =
      args.flatMap (kept defined) := by
  rw [bracket?_marksArgs, selectArgs_eq_map, flatMap_map]
  rfl

theorem selectedPartsArgs_eq_flatMap :
    selectedPartsArgs defined args = args.flatMap fun arg =>
      arg :: selectedPartsList defined arg := by
  induction args with
  | nil => rfl
  | cons arg args ih => simp [selectedPartsArgs, ih]

/-- The parentheses of a call, and what stands in them. -/
def enclosed (ds : List Delimiter) : List Delimiter := .lparen :: (ds ++ [.rparen])

theorem kept_call (h : f.args? = some args) : kept defined (f :: fs) =
    enclosed (args.flatMap (kept defined)) ++ kept defined fs := by
  cases f <;> cases h <;>
    simp [kept, brackets, selectList, select, marksList, marks, filterMap_cons, Mark.bracket?,
      Token.bracket?, isBracket, opens, closes, bracket?_marksArgs_selectArgs, enclosed]

theorem kept_branch :
    kept defined (.branch cond yes no loc :: fs) =
      kept defined (if cond.eval defined then yes else no) ++ kept defined fs := by
  rw [kept, selectList, select, brackets, marksList_append, filterMap_append]
  split <;> rfl

theorem ownBrackets_token :
    ownBrackets (.token t :: fs) = t.token.bracket?.toList ++ ownBrackets fs := by
  cases h : t.token.bracket? <;> simp [ownBrackets, token?, h]

theorem ownBrackets_call (h : f.args? = some args) : ownBrackets (f :: fs) = ownBrackets fs := by
  cases f <;> cases h <;> rfl

theorem selectedParts_call (h : f.args? = some args) :
    f.selectedParts defined = args.flatMap fun arg => arg :: selectedPartsList defined arg := by
  rw [← selectedPartsArgs_eq_flatMap]
  cases f <;> cases h <;> rfl

theorem selectedParts_branch :
    (branch cond yes no loc).selectedParts defined =
      let active := if cond.eval defined then yes else no
      active :: selectedPartsList defined active := by
  rw [selectedParts]
  split <;> rfl

theorem depthAfter?_of_bracketsAfter? {t : Token} (h : Reader.bracketsAfter? n t = some n') :
    t.bracket?.toList.foldlM depthAfter? n = some n' := by
  cases t with
  | delim d =>
    simp only [Reader.bracketsAfter?] at h
    split at h
    · next hopens => simpa [Token.bracket?, isBracket, hopens, depthAfter?] using h
    · next hopens =>
      split at h
      · next hcloses => simpa [Token.bracket?, isBracket, hopens, hcloses, depthAfter?] using h
      · next hcloses => simpa [Token.bracket?, isBracket, hopens, hcloses] using h
  | directive => cases h
  | _ => simpa [Reader.bracketsAfter?, Token.bracket?] using h

theorem depthAfter?_enclosed (h : ds.foldlM depthAfter? 0 = some n) :
    (enclosed ds).foldlM depthAfter? 0 = some n := by
  have hinner : ds.foldlM depthAfter? 1 = some (n + 1) := by simpa using depthAfter?_add h 1
  simp [enclosed, foldlM_cons, foldlM_append, hinner, depthAfter?, opens]

theorem nested_enclosed (h : Nested ds) : Nested (enclosed ds) :=
  .wrap rfl h .nil

theorem nested_of_enclosed (hdepth : ds.foldlM depthAfter? 0 = some n) (h : Nested (enclosed ds)) :
    Nested ds := by
  have hopen := h.openAfter?
  obtain rfl : n = 0 := Option.some.inj
    ((depthAfter?_enclosed hdepth).symm.trans (depthAfter?_of_openAfter? hopen))
  rw [enclosed, foldlM_cons] at hopen
  obtain ⟨_, -, hrest⟩ := Option.bind_eq_some_iff.1 hopen
  rw [foldlM_append] at hrest
  obtain ⟨_, hds, -⟩ := Option.bind_eq_some_iff.1 hrest
  exact nested_of_depthAfter? hdepth hds

theorem depthAfter?_flatMap
    (h : ∀ arg ∈ args, ∃ m, (kept defined arg).foldlM depthAfter? 0 = some m) :
    ∃ m, (args.flatMap (kept defined)).foldlM depthAfter? 0 = some m := by
  induction args with
  | nil => exact ⟨0, rfl⟩
  | cons arg args ih =>
    rw [forall_mem_cons] at h
    obtain ⟨⟨m, hm⟩, hargs⟩ := h
    obtain ⟨k, hk⟩ := ih hargs
    exact ⟨k + m, depthAfter?_parts hm hk⟩

/-- Fragments leave at least as many brackets open as they do without their branches. -/
theorem Leaves.depthAfter? (h : Leaves n fs n') (defined : String → Bool) :
    ∃ m, n' ≤ m ∧ (kept defined fs).foldlM Delimiter.depthAfter? n = some m := by
  have hgroup {ds es : List Delimiter} {k n n' : Nat}
      (hds : ds.foldlM Delimiter.depthAfter? 0 = some k)
      (hes : ∃ m, n' ≤ m ∧ es.foldlM Delimiter.depthAfter? n = some m) :
      ∃ m, n' ≤ m ∧ (ds ++ es).foldlM Delimiter.depthAfter? n = some m := by
    obtain ⟨m, hm, hes⟩ := hes
    exact ⟨m + k, by omega, depthAfter?_parts hds hes⟩
  induction h with
  | nil => exact ⟨_, Nat.le_refl _, rfl⟩
  | token hfirst _ ih =>
    obtain ⟨m, hm, hmore⟩ := ih
    refine ⟨m, hm, ?_⟩
    rw [kept_token, foldlM_append, depthAfter?_of_bracketsAfter? hfirst]
    exact hmore
  | initMain _ ih => simpa only [kept_initMain] using ih
  | call hf _ _ ihargs ih =>
    obtain ⟨k, hk⟩ := depthAfter?_flatMap fun arg harg => (ihargs arg harg).imp fun _ h => h.2
    rw [kept_call hf]
    exact hgroup (depthAfter?_enclosed hk) ih
  | branch _ _ _ ihyes ihno ih =>
    rw [kept_branch]
    split
    · obtain ⟨k, -, hk⟩ := ihyes
      exact hgroup hk ih
    · obtain ⟨k, -, hk⟩ := ihno
      exact hgroup hk ih

theorem nested_of_flatMap
    (h : ∀ arg ∈ args, ∃ m, (kept defined arg).foldlM depthAfter? 0 = some m)
    (hnested : Nested (args.flatMap (kept defined))) : ∀ arg ∈ args, Nested (kept defined arg) := by
  induction args with
  | nil => simp
  | cons arg args ih =>
    rw [forall_mem_cons] at h ⊢
    obtain ⟨⟨k, hk⟩, hargs⟩ := h
    obtain ⟨m, hm⟩ := depthAfter?_flatMap hargs
    have hopen := hnested.openAfter?
    obtain ⟨harg, -, hmore⟩ :=
      nested_left hk hm (Nat.zero_le m) (depthAfter?_of_openAfter? hopen) hopen
    exact ⟨harg, ih hargs (nested_iff.2 hmore)⟩

/-- Where a list and what is inside it leave no more open than the list itself, its own brackets do
what all of them do, and those of every part nest. -/
def Apart (defined : String → Bool) (n : Nat) (fs : List Fragment) (n' : Nat) : Prop :=
  ∀ open_ open' : List Delimiter, (kept defined fs).foldlM depthAfter? n = some n' →
    (kept defined fs).foldlM openAfter? open_ = some open' →
      (ownBrackets fs).foldlM openAfter? open_ = some open' ∧
        ∀ part ∈ selectedPartsList defined fs, Nested (ownBrackets part)

theorem Apart.nested (h : Apart defined 0 fs n) (hleaves : Leaves 0 fs n)
    (hnested : Nested (kept defined fs)) :
    ∀ part ∈ fs :: selectedPartsList defined fs, Nested (ownBrackets part) := by
  obtain ⟨m, hm, hdepth⟩ := hleaves.depthAfter? defined
  obtain rfl : m = 0 :=
    Option.some.inj (hdepth.symm.trans (depthAfter?_of_openAfter? hnested.openAfter?))
  obtain rfl : n = 0 := Nat.le_zero.1 hm
  obtain ⟨hown, hparts⟩ := h _ _ hdepth hnested.openAfter?
  exact forall_mem_cons.2 ⟨nested_iff.2 hown, hparts⟩

theorem Leaves.apart (h : Leaves n fs n') (defined : String → Bool) : Apart defined n fs n' := by
  induction h with
  | nil =>
    intro open_ open' _ hopen
    exact ⟨hopen, by simp [selectedPartsList]⟩
  | token hfirst _ ih =>
    intro open_ open' hdepth hopen
    rw [kept_token, foldlM_append] at hdepth hopen
    rw [depthAfter?_of_bracketsAfter? hfirst] at hdepth
    obtain ⟨open₁, hopen₁, hopen⟩ := Option.bind_eq_some_iff.1 hopen
    obtain ⟨hown, hparts⟩ := ih _ _ hdepth hopen
    refine ⟨?_, by simpa [selectedPartsList, selectedParts] using hparts⟩
    rw [ownBrackets_token, foldlM_append, hopen₁]
    exact hown
  | initMain _ ih =>
    intro open_ open' hdepth hopen
    rw [kept_initMain] at hdepth hopen
    exact ih _ _ hdepth hopen
  | call hf hargs hmore ihargs ih =>
    intro open_ open' hdepth hopen
    rw [kept_call hf] at hdepth hopen
    have hall := fun arg harg => ((hargs arg harg).depthAfter? defined).imp fun _ h => h.2
    obtain ⟨k, hk⟩ := depthAfter?_flatMap hall
    obtain ⟨m, hm, hrest⟩ := hmore.depthAfter? defined
    obtain ⟨hnested, hdepth, hopen⟩ := nested_left (depthAfter?_enclosed hk) hrest hm hdepth hopen
    obtain ⟨hown, hparts⟩ := ih _ _ hdepth hopen
    rw [ownBrackets_call hf, selectedPartsList, selectedParts_call hf]
    refine ⟨hown, forall_mem_append.2 ⟨fun part hpart => ?_, hparts⟩⟩
    obtain ⟨arg, harg, hpart⟩ := mem_flatMap.1 hpart
    have hnested := nested_of_flatMap hall (nested_of_enclosed hk hnested) arg harg
    exact (ihargs arg harg).nested (hargs arg harg) hnested part hpart
  | @branch cond yes no loc fs n n' a b hyes hno hmore ihyes ihno ih =>
    intro open_ open' hdepth hopen
    rw [kept_branch] at hdepth hopen
    obtain ⟨m, hm, hrest⟩ := hmore.depthAfter? defined
    -- The active branch is read as any other list.
    obtain ⟨e, hleaves, hapart⟩ : ∃ e, Leaves 0 (if cond.eval defined then yes else no) e ∧
        Apart defined 0 (if cond.eval defined then yes else no) e := by
      split
      · exact ⟨a, hyes, ihyes⟩
      · exact ⟨b, hno, ihno⟩
    obtain ⟨k, -, hk⟩ := hleaves.depthAfter? defined
    obtain ⟨hnested, hdepth, hopen⟩ := nested_left hk hrest hm hdepth hopen
    obtain ⟨hown, hparts⟩ := ih _ _ hdepth hopen
    rw [selectedPartsList, selectedParts_branch]
    exact ⟨hown, forall_mem_append.2 ⟨hapart.nested hleaves hnested, hparts⟩⟩

theorem Leaves.foldlM_kept (h : Leaves n fs n')
    (hparts : ∀ part ∈ selectedPartsList defined fs, Nested (ownBrackets part))
    (open_ : List Delimiter) :
    (kept defined fs).foldlM openAfter? open_ = (ownBrackets fs).foldlM openAfter? open_ := by
  induction h generalizing open_ with
  | nil => rfl
  | token _ _ ih =>
    rw [kept_token, ownBrackets_token, foldlM_append, foldlM_append]
    exact bind_congr fun open₁ =>
      ih (by simpa [selectedPartsList, selectedParts] using hparts) open₁
  | initMain _ ih =>
    rw [kept_initMain]
    exact ih hparts open_
  | call hf _ _ ihargs ih =>
    rw [selectedPartsList, selectedParts_call hf, forall_mem_append] at hparts
    rw [kept_call hf, ownBrackets_call hf, Nested.foldlM_append _ _ open_]
    · exact ih hparts.2 open_
    · refine nested_enclosed (Nested.flatMap fun arg harg => ?_)
      have hinside := fun part hpart => hparts.1 part (mem_flatMap.2 ⟨arg, harg, hpart⟩)
      rw [forall_mem_cons] at hinside
      rw [nested_iff, ihargs arg harg hinside.2]
      exact hinside.1.openAfter?
  | @branch cond yes no loc fs n n' a b _ _ _ ihyes ihno ih =>
    rw [selectedPartsList, selectedParts_branch, forall_mem_append, forall_mem_cons] at hparts
    rw [kept_branch, Nested.foldlM_append _ _ open_]
    · exact ih hparts.2 open_
    · obtain ⟨⟨hown, hinside⟩, -⟩ := hparts
      rw [nested_iff]
      refine Eq.trans ?_ hown.openAfter?
      revert hinside
      split
      · exact fun hinside => ihyes hinside []
      · exact fun hinside => ihno hinside []

/-- The brackets of a body nest exactly if those nest which stand in it, in each of its branches and
in each of its arguments by themselves. -/
theorem Leaves.nested_kept_iff (h : Leaves 0 fs 0) (defined : String → Bool) :
    Nested (kept defined fs) ↔
      ∀ part ∈ fs :: selectedPartsList defined fs, Nested (ownBrackets part) := by
  constructor
  · exact (h.apart defined).nested h
  · intro hparts
    rw [forall_mem_cons] at hparts
    rw [nested_iff, h.foldlM_kept hparts.2]
    exact hparts.1.openAfter?

end
end Fragment

namespace Reader
open Fragment

variable {term : Terminator} {fuel : Nat} {c c' : Cursor}

/-- Fragments are read with a count of the brackets that are open, and a terminator ends them where
none is. -/
def FragmentsLeave (fuel : Nat) : Prop :=
  ∀ {term : Terminator} {depth : Nat} {c c' : Cursor} {fs : List Fragment} {stop : Stop},
    Reads (fragments fuel term depth) c (fs, stop) c' →
      ∃ depth', Leaves depth fs depth' ∧ (stop = .terminator → depth' = 0)

def ArgumentsLeave (fuel : Nat) : Prop :=
  ∀ {loc close : Loc} {first : Bool} {c c' : Cursor} {args : List (List Fragment)},
    Reads (arguments fuel loc first) c (args, close) c' → ∀ arg ∈ args, Leaves 0 arg 0

theorem FragmentsLeave.branches (hf : FragmentsLeave fuel) {directive operand : String}
    {cond : Condition} {yes no : List Fragment}
    (h : ReadsConditional (bodyBranch fuel term) .branch directive operand () c cond yes no () c') :
    (∃ n, Leaves 0 yes n) ∧ ∃ n, Leaves 0 no n := by
  refine (h.forall_branches (fun _ => True) (fun fs => ∃ n, Leaves 0 fs n) trivial ⟨0, .nil⟩ id
    ?_ ?_).2
  · rintro _ _ _ _ ⟨a, hyes⟩ ⟨b, hno⟩
    exact ⟨0, .branch hyes hno .nil⟩
  · intro _ fs _ _ _ hbranch _
    simp only [bodyBranch, reads_bind, reads_pure, Prod.mk.injEq] at hbranch
    obtain ⟨⟨fs', stop⟩, _, hread, ⟨rfl, -⟩, -⟩ := hbranch
    obtain ⟨n, hleaves, -⟩ := hf hread
    exact ⟨trivial, n, hleaves⟩

theorem fragmentsLeave_succ (hf : FragmentsLeave fuel) (ha : ArgumentsLeave fuel) :
    FragmentsLeave (fuel + 1) := by
  intro term depth c c' fs stop h
  cases fragments_step h with
  | endOfInput => exact ⟨depth, .nil, nofun⟩
  | terminator _ hdepth _ => exact ⟨depth, .nil, fun _ => hdepth⟩
  | branchEnd => exact ⟨depth, .nil, nofun⟩
  | conditional _ _ hcond hmore =>
    obtain ⟨⟨a, hyes⟩, ⟨b, hno⟩⟩ := hf.branches hcond
    exact (hf hmore).imp fun _ h => ⟨.branch hyes hno h.1, h.2⟩
  | initMain _ hmore => exact (hf hmore).imp fun _ h => ⟨.initMain h.1, h.2⟩
  | ret _ hargs _ hmore => exact (hf hmore).imp fun _ h => ⟨.call rfl (ha hargs) h.1, h.2⟩
  | call _ hargs hmore => exact (hf hmore).imp fun _ h => ⟨.call rfl (ha hargs) h.1, h.2⟩
  | token _ hdepth hmore => exact (hf hmore).imp fun _ h => ⟨.token hdepth h.1, h.2⟩

theorem argumentsLeave_succ (hf : FragmentsLeave fuel) (ha : ArgumentsLeave fuel) :
    ArgumentsLeave (fuel + 1) := by
  intro loc close first c c' args h
  obtain ⟨arg, c₁, t, ts, harg, -, hend⟩ := arguments_step h
  obtain ⟨n, hleaves, hzero⟩ := hf harg
  obtain rfl := hzero rfl
  rcases hend with ⟨-, -, ⟨-, -, rfl⟩ | ⟨-, rfl⟩⟩ | ⟨-, -, args', rfl, hmore⟩
  · simp
  · simpa using hleaves
  · exact forall_mem_cons.2 ⟨hleaves, ha hmore⟩

theorem fragmentsLeave_and_argumentsLeave (fuel : Nat) :
    FragmentsLeave fuel ∧ ArgumentsLeave fuel := by
  induction fuel with
  | zero => exact ⟨fun h => by simp [fragments] at h, fun h => by simp [arguments] at h⟩
  | succ fuel ih => exact ⟨fragmentsLeave_succ ih.1 ih.2, argumentsLeave_succ ih.1 ih.2⟩

theorem leaves_of_terminated {loc : Loc} {fault : SourceFault} {fs : List Fragment}
    (h : Reads (terminated term loc fault) c fs c') : Leaves 0 fs 0 := by
  simp only [terminated, withFuel, reads_bind, reads_get] at h
  obtain ⟨⟨fs', stop⟩, c₁, ⟨_, _, ⟨rfl, rfl⟩, hread⟩, h⟩ := h
  by_cases hstop : stop = .terminator
  · obtain ⟨rfl, rfl⟩ := reads_pure.1 (by simpa [hstop] using h)
    obtain ⟨n, hleaves, hzero⟩ := (fragmentsLeave_and_argumentsLeave _).1 hread
    exact hzero hstop ▸ hleaves
  · simp [hstop] at h

theorem leaves_of_function {f : Function} (h : Reads function c f c') : Leaves 0 f.body 0 := by
  simp only [function, reads_bind] at h
  obtain ⟨loc, _, -, _, _, -, name, _, -, _, _, -, _, _, -, hparams⟩ := h
  split at hparams
  all_goals
    simp only [reads_bind] at hparams
    obtain ⟨_, _, -, _, _, -, _, _, -, body, _, hbody, _, _, -, hpure⟩ := hparams
    obtain ⟨rfl, -⟩ := reads_pure.1 hpure
    exact leaves_of_terminated hbody

theorem leaves_of_global {g : Global} (h : Reads global c (.global g) c') : Leaves 0 g.body 0 := by
  simp only [global, reads_bind] at h
  obtain ⟨_, _, -, body, _, hbody, _, _, -, hpure⟩ := h
  obtain ⟨heq, -⟩ := reads_pure.1 hpure
  cases heq
  exact leaves_of_terminated hbody

end Reader

/-- The fragments of a function, an entry point or a global. -/
def Item.body? : Item → Option (List Fragment)
  | function f => some f.body
  | entry e => some e.function.body
  | global g => some g.body
  | _ => none

namespace Program
open Delimiter Fragment

variable {file : String} {tokens : List Placed} {p : Program}

theorem leaves_of_read (h : Program.read file tokens = .ok p) :
    ∀ i ∈ p.allItems, ∀ fs, i.body? = some fs → Leaves 0 fs 0 := by
  refine forall_allItems (P := fun i => ∀ fs, i.body? = some fs → Leaves 0 fs 0)
    (fun _ hread fs hfs => ?_) ?_ nofun nofun h
  · cases hread with
    | function hread _ =>
      cases hfs
      exact Reader.leaves_of_function hread.2
    | global hread =>
      cases hfs
      exact Reader.leaves_of_global hread
    | _ => cases hfs
  · rintro f _ _ hread e rfl fs hfs
    cases hfs
    exact Reader.leaves_of_function hread.2

/-- In a program that is read, whatever is defined, every closing bracket of a body or a global has
an opening one before it that no other closes. The brackets nest exactly if those that stand
directly in the body, in a branch that remains or in an argument nest in each of these by
themselves: none is closed by a bracket of another kind, and no branch leaves one open. -/
theorem nested_brackets_iff (h : Program.read file tokens = .ok p) {i : Item} (hi : i ∈ p.allItems)
    {fs : List Fragment} (hfs : i.body? = some fs) (defined : String → Bool) :
    (∀ ds, ds <+: brackets (selectList defined fs) → ds.countP closes ≤ ds.countP opens) ∧
      (Nested (brackets (selectList defined fs)) ↔
        ∀ part ∈ fs :: selectedPartsList defined fs, Nested (ownBrackets part)) := by
  have hleaves := leaves_of_read h i hi fs hfs
  refine ⟨?_, hleaves.nested_kept_iff defined⟩
  rintro ds ⟨es, hes⟩
  obtain ⟨m, -, hdepth⟩ := hleaves.depthAfter? defined
  rw [kept, ← hes, foldlM_append] at hdepth
  obtain ⟨n, hds, -⟩ := Option.bind_eq_some_iff.1 hdepth
  exact countP_closes_le hds

/-- `[x] g((y))` with a branch for `A` that opens a brace and one for `B` that has `(]`. -/
def unbalancedBody : List Fragment :=
  let place (t : Token) : Fragment := .token ⟨t, ⟨"a.fsl", 1⟩⟩
  [place (.delim .lbracket), place (.word "x"), place (.delim .rbracket),
    .call "g" [[place (.delim .lparen), place (.word "y"), place (.delim .rparen)]] ⟨"a.fsl", 1⟩,
    .branch (.symbol "A") [place (.delim .lbrace)] [] ⟨"a.fsl", 1⟩,
    .branch (.symbol "B") [place (.delim .lparen), place (.delim .rbracket)] [] ⟨"a.fsl", 1⟩]

def unbalancedProgram : Program := ⟨[.global ⟨unbalancedBody, ⟨"a.fsl", 1⟩⟩]⟩

def unbalancedTokens : List Placed :=
  [.delim .lbracket, .word "x", .delim .rbracket, .word "g", .delim .lparen,
    .delim .lparen, .word "y", .delim .rparen, .delim .rparen, .directive "ifdef" "A",
    .delim .lbrace, .directive "endif" "",
    .directive "ifdef" "B", .delim .lparen, .delim .rbracket, .directive "endif" "",
    .delim .semicolon].map fun t => ⟨t, ⟨"a.fsl", 1⟩⟩

/-- The program is read, but its brackets nest only if neither symbol is defined. -/
theorem nested_brackets_iff_unbalancedProgram :
    Program.read "a.fsl" unbalancedTokens = .ok unbalancedProgram ∧
      Nested (brackets (selectList (fun _ => false) unbalancedBody)) ∧
      ¬ Nested (brackets (selectList (· == "A") unbalancedBody)) ∧
      ¬ Nested (brackets (selectList (· == "B") unbalancedBody)) := by
  have hread : Program.read "a.fsl" unbalancedTokens = .ok unbalancedProgram := by cbv
  have hmem : .global ⟨unbalancedBody, ⟨"a.fsl", 1⟩⟩ ∈ unbalancedProgram.allItems :=
    mem_singleton_self _
  have hiff := fun defined => (nested_brackets_iff hread hmem rfl defined).2
  exact ⟨hread, (hiff _).2 (by decide), mt (hiff _).1 (by decide), mt (hiff _).1 (by decide)⟩

end Program
end ShaderDialect
