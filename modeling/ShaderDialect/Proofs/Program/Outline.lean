import ShaderDialect.Program

/-! Outlines of programs: where markers, entry points and other declarations stand in the branches
and blocks of a source. Entry points are annotated in two ways, by all markers written since the
entry point before, and by the markers that remain directly before them. -/
namespace ShaderDialect

inductive EntryMark
  | rootSignature (name : String)
  | table (name : String)
  | threads (t : Threads)
  deriving Repr, DecidableEq

structure EntryLabel where
  rootSignature : Option String := none
  table : Option String := none
  threads : Option Threads := none
  deriving Repr, DecidableEq

namespace EntryLabel

/-- A marker takes the place of an earlier one of its kind. -/
def note (a : EntryLabel) : EntryMark → EntryLabel
  | .rootSignature name => { a with rootSignature := some name }
  | .table name => { a with table := some name }
  | .threads t => { a with threads := some t }

def ofMarks (ms : List EntryMark) : EntryLabel := ms.foldl note {}

theorem ofMarks_append (ms : List EntryMark) (m : EntryMark) :
    ofMarks (ms ++ [m]) = (ofMarks ms).note m := by
  simp [ofMarks]

def entry (a : EntryLabel) (stage : Stage) (f : Function) : EntryPoint where
  stage := stage
  function := f
  rootSignature := a.rootSignature
  table := a.table
  threads := a.threads

theorem entry_inj {a b : EntryLabel} {stage : Stage} {f : Function} :
    a.entry stage f = b.entry stage f ↔ a = b := by
  constructor
  · intro h
    obtain ⟨_, _, _⟩ := a
    obtain ⟨_, _, _⟩ := b
    simpa [entry] using h
  · rintro rfl
    rfl

end EntryLabel

/-- A declaration that markers do not annotate. -/
inductive Declaration
  | struct (d : StructDecl)
  | table (d : TableDecl)
  | sharedSet (d : SharedSet)
  | function (f : Function)
  | global (g : Global)

def Declaration.item : Declaration → Item
  | struct d => .struct d
  | table d => .table d
  | sharedSet d => .sharedSet d
  | function f => .function f
  | global g => .global g

inductive Outline
  | mark (m : EntryMark) (tokens : List Placed)
  | semicolon (t : Placed)
  | declaration (d : Declaration) (tokens : List Placed)
  | entry (stage : Stage) (f : Function) (tokens : List Placed)
  | branch (cond : Condition) (yes no : List Outline) (loc : Loc)
  | block (stage : Stage) (features : FeatureSet) (name : String) (inner : List Outline)
      (opening closing : Placed)

namespace Outline

mutual
/-- The items of an outline, whose entry points are annotated by all markers since the entry point
before, whatever branch or block they stand in. The markers that wait are passed along. -/
def items (ms : List EntryMark) : Outline → List Item × List EntryMark
  | mark m _ => ([], ms ++ [m])
  | semicolon _ => ([], ms)
  | declaration d _ => ([d.item], ms)
  | entry stage f _ => ([.entry ((EntryLabel.ofMarks ms).entry stage f)], [])
  | branch cond yes no loc =>
    let (ys, ms) := itemsList ms yes
    let (ns, ms) := itemsList ms no
    ([.branch cond ys ns loc], ms)
  | block stage features name inner opening _ =>
    let (is, ms) := itemsList ms inner
    ([.block stage features name is opening.loc], ms)

def itemsList (ms : List EntryMark) : List Outline → List Item × List EntryMark
  | [] => ([], ms)
  | o :: os =>
    let (is, ms) := items ms o
    let (js, ms) := itemsList ms os
    (is ++ js, ms)
end

end Outline

inductive Element
  | mark (m : EntryMark) (tokens : List Placed)
  | semicolon (t : Placed)
  | entry (stage : Stage) (f : Function) (tokens : List Placed)
  /-- Another item, or a directive that opens or closes a block. -/
  | other (tokens : List Placed)

/-- Entry points annotated by the markers that stand directly before them, with nothing but other
markers and semicolons between. -/
def Element.entries (ms : List EntryMark) : List Element → List EntryPoint
  | [] => []
  | mark m _ :: es => entries (ms ++ [m]) es
  | semicolon _ :: es => entries ms es
  | entry stage f _ :: es => (EntryLabel.ofMarks ms).entry stage f :: entries [] es
  | other _ :: es => entries [] es

namespace Outline
variable (defined : String → Bool)

mutual
/-- What remains of an outline when exactly the given symbols are defined. -/
def remaining : Outline → List Element
  | mark m ts => [.mark m ts]
  | semicolon t => [.semicolon t]
  | declaration _ ts => [.other ts]
  | entry stage f ts => [.entry stage f ts]
  | branch cond yes no _ => if cond.eval defined then remainingList yes else remainingList no
  | block _ _ _ inner opening closing =>
    .other [opening] :: remainingList inner ++ [.other [closing]]

def remainingList : List Outline → List Element
  | [] => []
  | o :: os => remaining o ++ remainingList os
end

structure Waiting where
  /-- Those since the entry point before, in all branches and blocks. -/
  written : List EntryMark
  /-- Those that remain directly before the position. -/
  direct : List EntryMark

/-- An entry point that remains, with the markers that wait for it. -/
structure Occurrence where
  stage : Stage
  function : Function
  waiting : Waiting

mutual
/-- The entry points that remain and the markers that wait after an outline, which is itself in a
branch that is kept or in one that is not. -/
def occurrences (active : Bool) (w : Waiting) : Outline → List Occurrence × Waiting
  | mark m _ => ([], ⟨w.written ++ [m], if active then w.direct ++ [m] else w.direct⟩)
  | semicolon _ => ([], w)
  | declaration _ _ => ([], ⟨w.written, if active then [] else w.direct⟩)
  | entry stage f _ =>
    (if active then [⟨stage, f, w⟩] else [], ⟨[], if active then [] else w.direct⟩)
  | branch cond yes no _ =>
    let (as, w) := occurrencesList (active && cond.eval defined) w yes
    let (bs, w) := occurrencesList (active && !cond.eval defined) w no
    (as ++ bs, w)
  | block _ _ _ inner _ _ =>
    let (as, w) := occurrencesList active ⟨w.written, if active then [] else w.direct⟩ inner
    (as, ⟨w.written, if active then [] else w.direct⟩)

def occurrencesList (active : Bool) (w : Waiting) : List Outline → List Occurrence × Waiting
  | [] => ([], w)
  | o :: os =>
    let (as, w) := occurrences active w o
    let (bs, w) := occurrencesList active w os
    (as ++ bs, w)
end

end Outline

namespace Item
variable (defined : String → Bool)

mutual
/-- The entry points that remain when exactly the given symbols are defined, in all blocks. -/
def entries : Item → List EntryPoint
  | entry e => [e]
  | branch cond yes no _ => if cond.eval defined then entriesList yes else entriesList no
  | block _ _ _ items _ => entriesList items
  | _ => []

def entriesList : List Item → List EntryPoint
  | [] => []
  | i :: is => entries i ++ entriesList is
end

theorem entriesList_append (is js : List Item) :
    entriesList defined (is ++ js) = entriesList defined is ++ entriesList defined js := by
  induction is with
  | nil => rfl
  | cons i is ih => simp [entriesList, ih]

end Item

namespace Outline
variable {defined : String → Bool}

mutual
/-- A branch that is not kept has no entry points, but its markers wait all the same. -/
theorem occurrences_inactive (w : Waiting) (o : Outline) :
    occurrences defined false w o = ([], ⟨(items w.written o).2, w.direct⟩) := by
  cases o with
  | branch cond yes no loc =>
    simp [occurrences, items, occurrencesList_inactive _ yes, occurrencesList_inactive _ no]
  | block stage features name inner opening closing =>
    simp [occurrences, items, occurrencesList_inactive _ inner]
  | _ => simp [occurrences, items]

theorem occurrencesList_inactive (w : Waiting) (os : List Outline) :
    occurrencesList defined false w os = ([], ⟨(itemsList w.written os).2, w.direct⟩) := by
  cases os with
  | nil => rfl
  | cons o os =>
    simp [occurrencesList, itemsList, occurrences_inactive w o, occurrencesList_inactive _ os]
end

def Occurrence.carried (o : Occurrence) : EntryPoint :=
  (EntryLabel.ofMarks o.waiting.written).entry o.stage o.function

def Occurrence.direct (o : Occurrence) : EntryPoint :=
  (EntryLabel.ofMarks o.waiting.direct).entry o.stage o.function

theorem entries_declaration (d : Declaration) : d.item.entries defined = [] := by
  cases d <;> simp [Declaration.item, Item.entries]

mutual
/-- The entry points that remain among the items have the markers since the entry point before. -/
theorem entries_items (w : Waiting) (o : Outline) :
    Item.entriesList defined (items w.written o).1 =
        (occurrences defined true w o).1.map Occurrence.carried ∧
      (items w.written o).2 = (occurrences defined true w o).2.written := by
  cases o with
  | mark m ts => simp [items, occurrences, Item.entriesList]
  | semicolon t => simp [items, occurrences, Item.entriesList]
  | declaration d ts => simp [items, occurrences, Item.entriesList, entries_declaration]
  | entry stage f ts =>
    simp [items, occurrences, Item.entriesList, Item.entries, Occurrence.carried]
  | branch cond yes no loc =>
    by_cases hc : cond.eval defined
    · obtain ⟨hyes, hmarks⟩ := entries_itemsList w yes
      simp [items, occurrences, Item.entriesList, Item.entries, hc, hyes, hmarks,
        occurrencesList_inactive]
    · obtain ⟨hno, hmarks⟩ := entries_itemsList ⟨(itemsList w.written yes).2, w.direct⟩ no
      simp [items, occurrences, Item.entriesList, Item.entries, hc, hno, hmarks,
        occurrencesList_inactive]
  | block stage features name inner opening closing =>
    obtain ⟨hinner, hmarks⟩ := entries_itemsList ⟨w.written, []⟩ inner
    simp [items, occurrences, Item.entriesList, Item.entries, hinner, hmarks]

theorem entries_itemsList (w : Waiting) (os : List Outline) :
    Item.entriesList defined (itemsList w.written os).1 =
        (occurrencesList defined true w os).1.map Occurrence.carried ∧
      (itemsList w.written os).2 = (occurrencesList defined true w os).2.written := by
  cases os with
  | nil => simp [itemsList, occurrencesList, Item.entriesList]
  | cons o os =>
    obtain ⟨hhead, hmarks⟩ := entries_items w o
    obtain ⟨htail, hmarks'⟩ := entries_itemsList (occurrences defined true w o).2 os
    simp [itemsList, occurrencesList, Item.entriesList_append, hhead, hmarks, htail, hmarks']
end

mutual
/-- The entry points of what remains have the markers that remain directly before them. -/
theorem entries_remaining (w : Waiting) (o : Outline) (es : List Element) :
    Element.entries w.direct (remaining defined o ++ es) =
      (occurrences defined true w o).1.map Occurrence.direct ++
        Element.entries (occurrences defined true w o).2.direct es := by
  cases o with
  | mark m ts => simp [remaining, occurrences, Element.entries]
  | semicolon t => simp [remaining, occurrences, Element.entries]
  | declaration d ts => simp [remaining, occurrences, Element.entries]
  | entry stage f ts => simp [remaining, occurrences, Element.entries, Occurrence.direct]
  | branch cond yes no loc =>
    by_cases hc : cond.eval defined
    · have hyes := entries_remainingList w yes es
      simp [remaining, occurrences, hc, hyes, occurrencesList_inactive]
    · have hno := entries_remainingList ⟨(itemsList w.written yes).2, w.direct⟩ no es
      simp [remaining, occurrences, hc, hno, occurrencesList_inactive]
  | block stage features name inner opening closing =>
    have hinner := entries_remainingList ⟨w.written, []⟩ inner (.other [closing] :: es)
    simp [remaining, occurrences, Element.entries, hinner]

theorem entries_remainingList (w : Waiting) (os : List Outline) (es : List Element) :
    Element.entries w.direct (remainingList defined os ++ es) =
      (occurrencesList defined true w os).1.map Occurrence.direct ++
        Element.entries (occurrencesList defined true w os).2.direct es := by
  cases os with
  | nil => simp [remainingList, occurrencesList]
  | cons o os =>
    have hhead := entries_remaining w o (remainingList defined os ++ es)
    have htail := entries_remainingList (occurrences defined true w o).2 os es
    simp [remainingList, occurrencesList, hhead, htail]
end

/-- The two annotations of all entry points that remain agree exactly if the markers that wait for
each of them say the same. -/
theorem entries_eq_iff (os : List Outline) :
    Item.entriesList defined (itemsList [] os).1 =
        Element.entries [] (remainingList defined os) ↔
      ∀ o ∈ (occurrencesList defined true ⟨[], []⟩ os).1,
        EntryLabel.ofMarks o.waiting.written = EntryLabel.ofMarks o.waiting.direct := by
  have hcarried : Item.entriesList defined (itemsList [] os).1 =
      (occurrencesList defined true ⟨[], []⟩ os).1.map Occurrence.carried :=
    (entries_itemsList ⟨[], []⟩ os).1
  have hdirect : Element.entries [] (remainingList defined os ++ []) = _ :=
    entries_remainingList ⟨[], []⟩ os []
  rw [List.append_nil, Element.entries, List.append_nil] at hdirect
  rw [hcarried, hdirect, List.map_inj_left]
  exact forall₂_congr fun _ _ => EntryLabel.entry_inj

end Outline
end ShaderDialect
