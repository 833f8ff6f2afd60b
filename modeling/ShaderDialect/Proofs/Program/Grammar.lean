import ShaderDialect.Proofs.Program.Outline
import ShaderDialect.Proofs.Program.Passing

/-! Programs as they are read: each step of the reader, and the outline of what it takes. -/
namespace ShaderDialect
open Outline List

def Element.tokens : Element → List Placed
  | mark _ ts | entry _ _ ts | other ts => ts
  | semicolon t => [t]

/-- The tokens of an element that remain when exactly the given symbols are defined. -/
def Element.kept (defined : String → Bool) (e : Element) : List Placed :=
  (Directive.resolve defined [] e.tokens).getD []

namespace Reader
open Directive
variable {loc : Loc} {operand : String} {cond : Condition} {ts : List Placed} {P : Item → Prop}
  {i : Item} {is : List Item} {stop : Option Placed} {α : Type} {p : Pending} {c c' : Cursor}

def Pending.label (p : Pending) : EntryLabel := ⟨p.rootSignature, p.table, p.threads⟩

/-- The markers that wait when a further one has been read. -/
def Pending.note (p : Pending) (first : String × Loc) : EntryMark → Pending
  | .rootSignature name => { p with first := p.first.or (some first), rootSignature := some name }
  | .table name => { p with first := p.first.or (some first), table := some name }
  | .threads t => { p with first := p.first.or (some first), threads := some t }

theorem Pending.label_note (p : Pending) (first : String × Loc) (m : EntryMark) :
    (p.note first m).label = p.label.note m := by
  cases m <;> rfl

def entryMark : Reader ((String × Loc) × EntryMark) := do
  let name ← peekWord
  let (loc, args) ← marker name
  eat .semicolon
  match name with
  | "ROOT_SIGNATURE" =>
    expectCount name loc args 1
    return ((name, loc), .rootSignature (← wordArgument loc args 0 "root signature"))
  | "USE_SRT" =>
    expectCount name loc args 1
    return ((name, loc), .table (← wordArgument loc args 0 "table name"))
  | _ =>
    expectCount name loc args 3
    let x ← positive loc (args[0]?.getD [])
    let y ← positive loc (args[1]?.getD [])
    let z ← positive loc (args[2]?.getD [])
    return ((name, loc), .threads { x, y, z })

theorem prefixMarker_eq (p : Pending) :
    prefixMarker p = (fun r => p.note r.1 r.2) <$> entryMark := by
  unfold prefixMarker entryMark
  simp only [map_bind]
  refine bind_congr fun name => bind_congr fun r => ?_
  obtain ⟨loc, args⟩ := r
  simp only
  refine bind_congr fun _ => ?_
  split <;> simp [Pending.note]

theorem advances_entryMark {R : Course} : Advances R entryMark := by
  refine .after (fun _ => within_peekWord) fun name => advances_marker.bind fun r ts => ?_
  refine within_eat.bind fun _ => ?_
  split
  · exact within_expectCount.bind fun _ => within_wordArgument.bind fun _ => within_pure
  · exact within_expectCount.bind fun _ => within_wordArgument.bind fun _ => within_pure
  · exact within_expectCount.bind fun _ => within_positive.bind fun _ =>
      within_positive.bind fun _ => within_positive.bind fun _ => within_pure

/-- A function, after any `inline` words. -/
def ReadsFunction (f : Function) (c c' : Cursor) : Prop :=
  let rest := c.rest.dropWhile (·.token == .word "inline")
  isFunction rest ∧ Reads function { c with rest } f c'

inductive ReadsDeclaration : Declaration → Cursor → Cursor → Prop
  | struct {d : StructDecl} {c c' : Cursor} (h : Reads struct c d c') :
      ReadsDeclaration (.struct d) c c'
  | table {d : TableDecl} {c c' : Cursor}
      (h : Reads table c d c') : ReadsDeclaration (.table d) c c'
  | sharedSet {d : SharedSet} {c c' : Cursor} (h : Reads sharedSet c d c') :
      ReadsDeclaration (.sharedSet d) c c'
  | function {f : Function} {c c' : Cursor} (h : ReadsFunction f c c')
      (hname : Stage.ofEntryName? f.name = none) : ReadsDeclaration (.function f) c c'
  | global {g : Global} {c c' : Cursor} (h : Reads global c (.global g) c') :
      ReadsDeclaration (.global g) c c'

theorem ReadsFunction.passes {f : Function} (h : ReadsFunction f c c') : Passes c.rest c'.rest := by
  obtain ⟨-, hread⟩ := h
  refine Passes.trans ⟨c.rest.takeWhile (·.token == .word "inline"), ?_, fun _ => ?_⟩
    (advances_function.passes hread)
  · exact takeWhile_append_dropWhile.symm
  · refine closed_of_forall fun t ht => ?_
    have hword : t.token = .word "inline" := by
      simpa using all_eq_true.1 all_takeWhile t ht
    simp [hword, conditional?]

theorem ReadsDeclaration.passes {d : Declaration} (h : ReadsDeclaration d c c') :
    Passes c.rest c'.rest := by
  cases h with
  | struct h => exact advances_struct.passes h
  | table h => exact advances_table.passes h
  | sharedSet h => exact advances_sharedSet.passes h
  | function h _ => exact h.passes
  | global h => exact advances_global.passes h

/-- Items of a branch, without what stopped them. -/
def itemBranch (fuel : Nat) (ctx : Context) (p : Pending) : Reader (List Item × Pending) := do
  let (is, _, p) ← items fuel { ctx with inConditional := true } p
  return (is, p)

/-- What reading items may do first. -/
inductive ItemsStep (fuel : Nat) (ctx : Context) (p : Pending) (c : Cursor) :
    List Item → Option Placed → Pending → Cursor → Prop
  | stop : ItemsStep fuel ctx p c [] c.rest.head? p c
  | semicolon {loc : Loc} {ts : List Placed} {is : List Item} {stop : Option Placed} {p' : Pending}
      {c' : Cursor} (hrest : c.rest = ⟨.delim .semicolon, loc⟩ :: ts)
      (hmore : Reads (items fuel ctx p) { c with rest := ts } (is, stop, p') c') :
      ItemsStep fuel ctx p c is stop p' c'
  | mark {q p' : Pending} {c₁ c' : Cursor} {is : List Item} {stop : Option Placed}
      (hmark : Reads (prefixMarker p) c q c₁)
      (hmore : Reads (items fuel ctx q) c₁ (is, stop, p') c') : ItemsStep fuel ctx p c is stop p' c'
  | declaration {d : Declaration} {p' : Pending} {c₁ c' : Cursor} {is : List Item}
      {stop : Option Placed} (hread : ReadsDeclaration d c c₁)
      (hmore : Reads (items fuel ctx p) c₁ (is, stop, p') c') :
      ItemsStep fuel ctx p c (d.item :: is) stop p' c'
  | entry {stage : Stage} {f : Function} {p' : Pending} {c₁ c' : Cursor} {is : List Item}
      {stop : Option Placed} (hread : ReadsFunction f c c₁)
      (hstage : Stage.ofEntryName? f.name = some stage)
      (hmore : Reads (items fuel ctx {}) c₁ (is, stop, p') c') :
      ItemsStep fuel ctx p c (.entry (p.label.entry stage f) :: is) stop p' c'
  | conditional {name operand : String} {loc : Loc} {ts : List Placed} {cond : Condition}
      {yes no is : List Item} {q p' : Pending} {c₁ c' : Cursor} {stop : Option Placed}
      (hrest : c.rest = ⟨.directive name operand, loc⟩ :: ts) (hopens : opensConditional name)
      (hcond : ReadsConditional (itemBranch fuel ctx) .branch name operand p { c with rest := ts }
        cond yes no q c₁)
      (hmore : Reads (items fuel ctx q) c₁ (is, stop, p') c') :
      ItemsStep fuel ctx p c (.branch cond yes no loc :: is) stop p' c'
  | block {name operand operand' output : String} {loc loc' : Loc} {ts : List Placed}
      {stage : Stage}
      {features : FeatureSet} {inner is : List Item} {q p' : Pending} {c₁ c' : Cursor}
      {stop : Option Placed} (hrest : c.rest = ⟨.directive name operand, loc⟩ :: ts)
      (hstage : Stage.ofBlockDirective? name = some stage)
      (hheader : Reads (blockHeader loc (Text.words operand) .empty none) { c with rest := ts }
        (features, some output) { c with rest := ts })
      (hinner : Reads (items fuel { inBlock := true } p) { c with rest := ts }
        (inner, some ⟨.directive "end" operand', loc'⟩, q) c₁)
      (hmore : Reads (items fuel ctx q) { c₁ with rest := c₁.rest.tail } (is, stop, p') c') :
      ItemsStep fuel ctx p c (.block stage features output inner loc :: is) stop p' c'

theorem reads_noPending {u : Unit} (h : Reads (noPending p) c u c') : c' = c := by
  unfold noPending at h
  split at h
  · simp at h
  · exact (reads_pure.1 h).2

theorem reads_blockHeader {words : List String} {features : FeatureSet} {name : Option String}
    {r : FeatureSet × Option String} (h : Reads (blockHeader loc words features name) c r c') :
    c' = c := by
  induction words generalizing features name with
  | nil => exact (reads_pure.1 h).2
  | cons word words ih =>
    rw [blockHeader] at h
    split at h
    · split at h
      · exact ih h
      · simp at h
    · split at h
      · simp at h
      · exact ih h

variable {fuel : Nat} {ctx : Context} {p' : Pending}

theorem reads_more_item
    (h : Reads (do
      let (is, stop, p) ← items fuel ctx p
      return (i :: is, stop, p) : Reader (List Item × Option Placed × Pending)) c
      (is, stop, p') c') : ∃ js, is = i :: js ∧ Reads (items fuel ctx p) c (js, stop, p') c' := by
  obtain ⟨⟨js, s, q⟩, c₁, hread, hpure⟩ := reads_bind.1 h
  obtain ⟨heq, rfl⟩ := reads_pure.1 hpure
  cases heq
  exact ⟨js, rfl, hread⟩

theorem reads_global (h : Reads global c i c') : ∃ g, i = .global g := by
  simp only [global, reads_bind] at h
  obtain ⟨loc, _, -, body, _, -, _, _, -, hpure⟩ := h
  exact ⟨_, (reads_pure.1 hpure).1⟩

theorem reads_noPending_bind {a : α} {f : Unit → Reader α} (h : Reads (noPending p >>= f) c a c') :
    Reads (f ()) c a c' := by
  obtain ⟨_, c₁, hnone, hread⟩ := reads_bind.1 h
  obtain rfl := reads_noPending hnone
  exact hread

theorem declaration_step {q : Pending} {c₁ : Cursor} (h : Reads (declaration p) c (i, q) c₁) :
    (∃ d : Declaration, i = d.item ∧ q = p ∧ ReadsDeclaration d c c₁) ∨
    (∃ stage f, i = .entry (p.label.entry stage f) ∧ q = {} ∧ ReadsFunction f c c₁ ∧
      Stage.ofEntryName? f.name = some stage) := by
  obtain ⟨c₀, c₂, hget, hread⟩ := reads_bind.1 h
  obtain ⟨rfl, rfl⟩ := reads_get.1 hget
  simp only at hread
  split at hread
  · rename_i hfunction
    obtain ⟨_, c₃, hset, hread⟩ := reads_bind.1 hread
    obtain rfl := reads_set.1 hset
    obtain ⟨f, c₄, hf, hread⟩ := reads_bind.1 hread
    have hreads : ReadsFunction f c₂ c₄ := ⟨hfunction, hf⟩
    split at hread
    · rename_i stage hstage
      obtain ⟨heq, rfl⟩ := reads_pure.1 hread
      cases heq
      exact .inr ⟨stage, f, rfl, rfl, hreads, hstage⟩
    · rename_i hname
      have hpure := reads_noPending_bind hread
      obtain ⟨heq, rfl⟩ := reads_pure.1 hpure
      cases heq
      exact .inl ⟨.function f, rfl, rfl, .function hreads hname⟩
  · obtain ⟨j, c₆, hglobal, hpure⟩ := reads_bind.1 (reads_noPending_bind hread)
    obtain ⟨heq, rfl⟩ := reads_pure.1 hpure
    cases heq
    obtain ⟨g, rfl⟩ := reads_global hglobal
    exact .inl ⟨.global g, rfl, rfl, .global hglobal⟩

theorem reads_refuse {a : α} {b : Bool} {fault : SourceFault} {f : Unit → Reader α}
    (h : Reads (if b = true then fail loc fault >>= f else f ()) c a c') : Reads (f ()) c a c' := by
  cases b with
  | false => exact h
  | true => simp at h

theorem items_step_declaration {x : Reader α} {wrap : α → Item}
    (hdecl : ∀ {a c₁}, Reads x c a c₁ → ∃ d, Declaration.item d = wrap a ∧ ReadsDeclaration d c c₁)
    (h : Reads (x >>= fun a => do
      let (is, stop, p) ← items fuel ctx p
      return (wrap a :: is, stop, p) : Reader (List Item × Option Placed × Pending)) c
      (is, stop, p') c') : ItemsStep fuel ctx p c is stop p' c' := by
  obtain ⟨a, c₁, ha, hrest⟩ := reads_bind.1 h
  obtain ⟨js, rfl, hmore⟩ := reads_more_item hrest
  obtain ⟨d, hitem, hd⟩ := hdecl ha
  rw [← hitem]
  exact .declaration hd hmore

theorem items_step (h : Reads (items (fuel + 1) ctx p) c (is, stop, p') c') :
    ItemsStep fuel ctx p c is stop p' c' := by
  obtain ⟨rest, last⟩ := c
  obtain ⟨c₀, c₁, hget, hread⟩ := reads_bind.1 h
  obtain ⟨rfl, rfl⟩ := reads_get.1 hget
  cases rest with
  | nil =>
    obtain ⟨heq, rfl⟩ := reads_pure.1 hread
    cases heq
    exact .stop
  | cons t ts =>
    obtain ⟨token, loc⟩ := t
    dsimp only at hread
    split at hread
    · rename_i name operand
      split at hread
      · rename_i hopens
        obtain ⟨⟨cond, yes, no, q⟩, c₁, hcond, hrest⟩ := reads_bind.1 (reads_skip_bind.1 hread)
        obtain ⟨js, rfl, hmore⟩ := reads_more_item hrest
        exact .conditional rfl hopens (readsConditional_of_reads hcond) hmore
      · split at hread
        · obtain ⟨heq, rfl⟩ := reads_pure.1 hread
          cases heq
          exact .stop
        · split at hread
          · simp at hread
          · rename_i stage hstage
            have hskip := reads_refuse hread
            replace hskip := reads_refuse hskip
            obtain ⟨⟨features, output⟩, c₁, hheader, hrest⟩ :=
              reads_bind.1 (reads_skip_bind.1 hskip)
            obtain rfl := reads_blockHeader hheader
            cases output with
            | none => simp at hrest
            | some output =>
              obtain ⟨⟨inner, stop', q⟩, c₂, hinner, hend⟩ := reads_bind.1 hrest
              replace hend := reads_noPending_bind hend
              dsimp only at hend
              split at hend
              · simp at hend
              · rename_i s
                obtain ⟨token, loc'⟩ := s
                dsimp only at hend
                split at hend
                · obtain ⟨js, rfl, hmore⟩ := reads_more_item (reads_skip_bind.1 hend)
                  exact .block rfl hstage hheader hinner hmore
                · simp at hend
    · exact .semicolon rfl (reads_skip_bind.1 hread)
    · have hstruct := reads_noPending_bind hread
      exact items_step_declaration (fun hd => ⟨.struct _, rfl, .struct hd⟩) hstruct
    · have htable := reads_refuse (reads_noPending_bind hread)
      exact items_step_declaration (fun hd => ⟨.table _, rfl, .table hd⟩) htable
    · have hset := reads_refuse (reads_noPending_bind hread)
      exact items_step_declaration (fun hd => ⟨.sharedSet _, rfl, .sharedSet hd⟩) hset
    · obtain ⟨q, c₁, hmark, hmore⟩ := reads_bind.1 hread
      exact .mark hmark hmore
    · obtain ⟨q, c₁, hmark, hmore⟩ := reads_bind.1 hread
      exact .mark hmark hmore
    · obtain ⟨q, c₁, hmark, hmore⟩ := reads_bind.1 hread
      exact .mark hmark hmore
    · obtain ⟨⟨i, q⟩, c₁, hdecl, hrest⟩ := reads_bind.1 hread
      obtain ⟨js, rfl, hmore⟩ := reads_more_item hrest
      obtain ⟨d, rfl, rfl, hd⟩ | ⟨stage, f, rfl, rfl, hf, hstage⟩ := declaration_step hdecl
      · exact .declaration hd hmore
      · exact .entry hf hstage hmore
    · refine items_step_declaration (fun hglobal => ?_) (reads_noPending_bind hread)
      obtain ⟨g, rfl⟩ := reads_global hglobal
      exact ⟨.global g, rfl, .global hglobal⟩

mutual
/-- Between two cursors stands an outline. -/
inductive Outlines : List Outline → Cursor → Cursor → Prop
  | nil {c : Cursor} : Outlines [] c c
  | mark {first : String × Loc} {m : EntryMark} {ts : List Placed} {os : List Outline}
      {c c₁ c' : Cursor} (hread : Reads entryMark c (first, m) c₁) (hts : c.rest = ts ++ c₁.rest)
      (hos : Outlines os c₁ c') : Outlines (.mark m ts :: os) c c'
  | semicolon {loc : Loc} {ts : List Placed} {os : List Outline} {c c' : Cursor}
      (hrest : c.rest = ⟨.delim .semicolon, loc⟩ :: ts)
      (hos : Outlines os { c with rest := ts } c') :
      Outlines (.semicolon ⟨.delim .semicolon, loc⟩ :: os) c c'
  | declaration {d : Declaration} {ts : List Placed} {os : List Outline} {c c₁ c' : Cursor}
      (hread : ReadsDeclaration d c c₁) (hts : c.rest = ts ++ c₁.rest) (hos : Outlines os c₁ c') :
      Outlines (.declaration d ts :: os) c c'
  | entry {stage : Stage} {f : Function} {ts : List Placed} {os : List Outline} {c c₁ c' : Cursor}
      (hread : ReadsFunction f c c₁) (hstage : Stage.ofEntryName? f.name = some stage)
      (hts : c.rest = ts ++ c₁.rest) (hos : Outlines os c₁ c') :
      Outlines (.entry stage f ts :: os) c c'
  | branch {name operand : String} {loc : Loc} {ts : List Placed} {cond : Condition}
      {yes no os : List Outline} {c c₁ c₂ c' : Cursor}
      (hrest : c.rest = ⟨.directive name operand, loc⟩ :: ts) (hopens : opensConditional name)
      (hcond : Condition.read name operand = .ok cond)
      (hyes : Outlines yes { c with rest := ts } c₁) (hno : Alternative no c₁ c₂)
      (hos : Outlines os c₂ c') : Outlines (.branch cond yes no loc :: os) c c'
  | block {name operand operand' output : String} {loc loc' : Loc} {ts us : List Placed}
      {stage : Stage} {features : FeatureSet} {inner os : List Outline} {c c₁ c' : Cursor}
      (hrest : c.rest = ⟨.directive name operand, loc⟩ :: ts)
      (hstage : Stage.ofBlockDirective? name = some stage)
      (hheader : Reads (blockHeader loc (Text.words operand) .empty none) { c with rest := ts }
        (features, some output) { c with rest := ts })
      (hinner : Outlines inner { c with rest := ts } c₁)
      (hend : c₁.rest = ⟨.directive "end" operand', loc'⟩ :: us)
      (hos : Outlines os { c₁ with rest := us } c') :
      Outlines (.block stage features output inner ⟨.directive name operand, loc⟩
        ⟨.directive "end" operand', loc'⟩ :: os) c c'

/-- Between two cursors stands what follows the first branch of a conditional. -/
inductive Alternative : List Outline → Cursor → Cursor → Prop
  | endif {operand : String} {loc : Loc} {ts : List Placed} {c : Cursor}
      (hend : c.rest = ⟨.directive "endif" operand, loc⟩ :: ts) :
      Alternative [] c { c with rest := ts }
  | otherwise {operand operand' : String} {loc loc' : Loc} {ts us : List Placed}
      {no : List Outline} {c c₁ : Cursor}
      (helse : c.rest = ⟨.directive "else" operand, loc⟩ :: ts)
      (hno : Outlines no { c with rest := ts } c₁)
      (hend : c₁.rest = ⟨.directive "endif" operand', loc'⟩ :: us) :
      Alternative no c { c₁ with rest := us }
  | elif {operand : String} {loc : Loc} {ts : List Placed} {cond : Condition}
      {yes no : List Outline} {c c₁ c' : Cursor}
      (helif : c.rest = ⟨.directive "elif" operand, loc⟩ :: ts)
      (hcond : Condition.read "if" operand = .ok cond)
      (hyes : Outlines yes { c with rest := ts } c₁) (hno : Alternative no c₁ c') :
      Alternative [.branch cond yes no loc] c c'
end

/-- Reading items finds an outline of what it takes: its items are those that are read, if the
markers that wait before and after are those of the reader. -/
def Outlined (p : Pending) (is : List Item) (p' : Pending) (c c' : Cursor) : Prop :=
  ∀ ms, p.label = .ofMarks ms → ∃ os ms', Outlines os c c' ∧
    Outline.itemsList ms os = (is, ms') ∧ p'.label = .ofMarks ms'

theorem ReadsConditional.outlined {branch : Pending → Reader (List Item × Pending)}
    {directive : String} {yes no : List Item}
    (h : ReadsConditional branch .branch directive operand p c cond yes no p' c')
    (hbranch : ∀ {p is p' c c'}, Reads (branch p) c (is, p') c' → Outlined p is p' c c')
    (ms : List EntryMark) (hp : p.label = .ofMarks ms) :
    Condition.read directive operand = .ok cond ∧ ∃ os os' ms₁ ms' c₁,
      Outlines os c c₁ ∧ Alternative os' c₁ c' ∧ itemsList ms os = (yes, ms₁) ∧
      itemsList ms₁ os' = (no, ms') ∧ p'.label = .ofMarks ms' := by
  induction h generalizing ms with
  | endif hcond hyes hend =>
    obtain ⟨os, ms', hos, hitems, hp'⟩ := hbranch hyes ms hp
    exact ⟨hcond, os, [], ms', ms', _, hos, .endif hend, hitems, rfl, hp'⟩
  | otherwise hcond hyes helse hno hend =>
    obtain ⟨os, ms₁, hos, hitems, hp₁⟩ := hbranch hyes ms hp
    obtain ⟨os', ms', hos', hitems', hp'⟩ := hbranch hno ms₁ hp₁
    exact ⟨hcond, os, os', ms₁, ms', _, hos, .otherwise helse hos' hend, hitems, hitems', hp'⟩
  | @elif _ _ _ at_ _ _ _ _ _ _ _ _ _ _ _ _ hcond hyes helif hno ih =>
    obtain ⟨os, ms₁, hos, hitems, hp₁⟩ := hbranch hyes ms hp
    obtain ⟨hcond', os₁, os₂, ms₂, ms', c₂, hos₁, halt, hitems₁, hitems₂, hp'⟩ := ih ms₁ hp₁
    refine ⟨hcond, os, [.branch _ os₁ os₂ at_], ms₁, ms', _, hos, .elif helif hcond' hos₁ halt,
      hitems, ?_, hp'⟩
    simp [Outline.itemsList, Outline.items, hitems₁, hitems₂]

theorem items_stop (h : Reads (items fuel ctx p) c (is, stop, p') c') : stop = c'.rest.head? := by
  induction fuel generalizing ctx p c is stop p' c' with
  | zero => simp [items] at h
  | succ fuel ih =>
    cases items_step h with
    | stop => rfl
    | semicolon _ hmore | mark _ hmore | declaration _ hmore | entry _ _ hmore => exact ih hmore
    | conditional _ _ _ hmore | block _ _ _ _ hmore => exact ih hmore

theorem items_outlined (h : Reads (items fuel ctx p) c (is, stop, p') c') :
    Outlined p is p' c c' := by
  induction fuel generalizing ctx p c is stop p' c' with
  | zero => simp [items] at h
  | succ fuel ih =>
    have hbranch {p p' : Pending} {is : List Item} {c c' : Cursor}
        (hread : Reads (itemBranch fuel ctx p) c (is, p') c') : Outlined p is p' c c' := by
      obtain ⟨⟨js, stop, q⟩, c₁, hitems, hpure⟩ := reads_bind.1 hread
      obtain ⟨heq, rfl⟩ := reads_pure.1 hpure
      cases heq
      exact ih hitems
    intro ms hp
    cases items_step h with
    | stop => exact ⟨[], ms, .nil, rfl, hp⟩
    | semicolon hrest hmore =>
      obtain ⟨os, ms', hos, hitems, hp'⟩ := ih hmore ms hp
      exact ⟨_, ms', .semicolon hrest hos, by simp [Outline.itemsList, Outline.items, hitems], hp'⟩
    | mark hmark hmore =>
      rw [prefixMarker_eq] at hmark
      obtain ⟨⟨first, m⟩, hread, rfl⟩ := reads_map.1 hmark
      have hnote : (p.note first m).label = .ofMarks (ms ++ [m]) := by
        rw [EntryLabel.ofMarks_append, ← hp, Pending.label_note]
      obtain ⟨os, ms', hos, hitems, hp'⟩ := ih hmore (ms ++ [m]) hnote
      obtain ⟨ts, hts, -⟩ := advances_entryMark.passes hread
      exact ⟨_, ms', .mark hread hts hos, by simp [Outline.itemsList, Outline.items, hitems], hp'⟩
    | declaration hread hmore =>
      obtain ⟨os, ms', hos, hitems, hp'⟩ := ih hmore ms hp
      obtain ⟨ts, hts, -⟩ := hread.passes
      exact ⟨_, ms', .declaration hread hts hos, by simp [Outline.itemsList, Outline.items, hitems],
        hp'⟩
    | entry hread hstage hmore =>
      obtain ⟨os, ms', hos, hitems, hp'⟩ := ih hmore [] rfl
      obtain ⟨ts, hts, -⟩ := hread.passes
      exact ⟨_, ms', .entry hread hstage hts hos,
        by simp [Outline.itemsList, Outline.items, hitems, hp], hp'⟩
    | conditional hrest hopens hcond hmore =>
      obtain ⟨hread, os₁, os₂, ms₁, ms₂, c₂, hos₁, halt, hitems₁, hitems₂, hq⟩ :=
        hcond.outlined hbranch ms hp
      obtain ⟨os, ms', hos, hitems, hp'⟩ := ih hmore ms₂ hq
      exact ⟨_, ms', .branch hrest hopens hread hos₁ halt hos,
        by simp [Outline.itemsList, Outline.items, hitems₁, hitems₂, hitems], hp'⟩
    | @block _ _ _ _ _ _ _ _ _ _ _ _ _ c₁ _ _ hrest hstage hheader hinner hmore =>
      obtain ⟨os₁, ms₁, hos₁, hitems₁, hq⟩ := ih hinner ms hp
      obtain ⟨os, ms', hos, hitems, hp'⟩ := ih hmore ms₁ hq
      obtain ⟨us, hus⟩ : ∃ us, c₁.rest = _ :: us :=
        head?_eq_some_iff.1 (items_stop hinner).symm
      exact ⟨_, ms', .block hrest hstage hheader hos₁ hus (by simpa [hus] using hos),
        by simp [Outline.itemsList, Outline.items, hitems₁, hitems], hp'⟩

theorem Passes.closed (h : Passes c.rest c'.rest) (hts : c.rest = ts ++ c'.rest)
    (halone : Alone c.rest) : Closed ts := by
  obtain ⟨us, hus, hclosed⟩ := h
  obtain rfl := append_cancel_right (hts.symm.trans hus)
  exact hclosed halone

section
variable {defined : String → Bool} {es : List Element} {c₁ : Cursor} {name : String}

/-- Between two cursors stand tokens that contribute those of the elements. -/
def Shows (defined : String → Bool) (es : List Element) (c c' : Cursor) : Prop :=
  ∃ ts, c.rest = ts ++ c'.rest ∧ Yields defined ts (es.flatMap (Element.kept defined))

theorem shows_nil : Shows defined [] c c := ⟨[], rfl, yields_nil⟩

theorem Shows.append {es' : List Element} (h : Shows defined es c c₁)
    (h' : Shows defined es' c₁ c') : Shows defined (es ++ es') c c' := by
  obtain ⟨ts, hts, hyields⟩ := h
  obtain ⟨us, hus, hyields'⟩ := h'
  refine ⟨ts ++ us, by simp [hts, hus], ?_⟩
  rw [flatMap_append]
  exact hyields.append hyields'

theorem shows_single {e : Element} (hts : c.rest = e.tokens ++ c'.rest)
    (hclosed : Closed e.tokens) : Shows defined [e] c c' := by
  obtain ⟨kept, hyields⟩ := hclosed defined
  refine ⟨e.tokens, hts, ?_⟩
  simpa [Element.kept, hyields.resolve_eq] using hyields

theorem Shows.suffix (h : Shows defined es c c') : c'.rest <:+ c.rest := by
  obtain ⟨ts, hts, -⟩ := h
  exact ⟨ts, hts.symm⟩

theorem shows_cons (e : Element) (hts : c.rest = e.tokens ++ c₁.rest) (h : Passes c.rest c₁.rest)
    (halone : Alone c.rest) (hes : Alone c₁.rest → Shows defined es c₁ c') :
    Shows defined (e :: es) c c' :=
  (shows_single hts (h.closed hts halone)).append (hes (halone.suffix h.suffix))

theorem closed_directive (h : opensConditional name = false ∧ endsBranch name = false) :
    Closed [⟨.directive name operand, loc⟩] :=
  closed_of_forall (by simp [conditional?, h])

theorem not_conditional_of_block {stage : Stage} (h : Stage.ofBlockDirective? name = some stage) :
    opensConditional name = false ∧ endsBranch name = false := by
  unfold Stage.ofBlockDirective? at h
  split at h <;> first | exact ⟨rfl, rfl⟩ | cases h

theorem Outlines.shows_branch {yes no : List Outline}
    (hrest : c.rest = ⟨.directive name operand, loc⟩ :: ts) (hopens : opensConditional name)
    (hcond : Condition.read name operand = .ok cond)
    (hyes : Shows defined (remainingList defined yes) { c with rest := ts } c₁)
    (hno : ∃ us, c₁.rest = us ++ c'.rest ∧
      Continues defined us ((remainingList defined no).flatMap (Element.kept defined))) :
    Shows defined (remaining defined (.branch cond yes no loc)) c c' := by
  obtain ⟨us, hus, hyields⟩ := hyes
  obtain ⟨vs, hvs, hcont⟩ := hno
  refine ⟨⟨.directive name operand, loc⟩ :: (us ++ vs), ?_, ?_⟩
  · rw [hrest, show ts = us ++ c₁.rest from hus, hvs]
    simp
  · have hconditional := hyields.conditional hopens hcond hcont loc
    by_cases hv : cond.eval defined
    · simpa [remaining, hv] using hconditional
    · simpa [remaining, hv] using hconditional

mutual
/-- The tokens of an outline that remain are those of the elements that remain. -/
theorem Outlines.shows {os : List Outline} {c c' : Cursor} (h : Outlines os c c')
    (halone : Alone c.rest) : Shows defined (remainingList defined os) c c' := by
  cases h with
  | nil => exact shows_nil
  | @mark _ m ts _ _ _ _ hread hts hos =>
    exact shows_cons (.mark m ts) hts (advances_entryMark.passes hread) halone hos.shows
  | @semicolon loc ts _ _ _ hrest hos =>
    have hsemicolon : Shows defined [.semicolon ⟨.delim .semicolon, loc⟩] c { c with rest := ts } :=
      shows_single hrest (closed_of_forall (by simp [Element.tokens, conditional?]))
    exact hsemicolon.append (hos.shows (halone.suffix hsemicolon.suffix))
  | @declaration _ ts _ _ _ _ hread hts hos =>
    exact shows_cons (.other ts) hts hread.passes halone hos.shows
  | @entry stage f ts _ _ _ _ hread _ hts hos =>
    exact shows_cons (.entry stage f ts) hts hread.passes halone hos.shows
  | branch hrest hopens hcond hyes hno hos =>
    have halone' := halone.suffix (suffix_of_cons hrest)
    have hshows := hyes.shows halone'
    have hbranch := Outlines.shows_branch hrest hopens hcond hshows
      (hno.continues (halone'.suffix hshows.suffix))
    exact hbranch.append (hos.shows (halone.suffix hbranch.suffix))
  | @block name operand operand' _ loc loc' ts us _ _ inner _ _ c₁ _ hrest hstage _
      hinner hend hos =>
    have halone' := halone.suffix (suffix_of_cons hrest)
    have hshows := hinner.shows halone'
    have hopening :
        Shows defined [.other [⟨.directive name operand, loc⟩]] c { c with rest := ts } :=
      shows_single hrest (closed_directive (not_conditional_of_block hstage))
    have hclosing : Shows defined [.other [⟨.directive "end" operand', loc'⟩]] c₁
        { c₁ with rest := us } := shows_single hend (closed_directive ⟨rfl, rfl⟩)
    have hblock := (hopening.append hshows).append hclosing
    exact hblock.append (hos.shows (halone.suffix hblock.suffix))
termination_by (sizeOf os, 0)

theorem Alternative.continues {no : List Outline} {c c' : Cursor} (h : Alternative no c c')
    (halone : Alone c.rest) :
    ∃ ts, c.rest = ts ++ c'.rest ∧
      Continues defined ts ((remainingList defined no).flatMap (Element.kept defined)) := by
  cases h with
  | endif hend => exact ⟨[_], hend, continues_endif _ _⟩
  | @otherwise operand operand' loc loc' ts _ _ _ c₁ helse hno hend =>
    obtain ⟨us, hus, hyields⟩ := hno.shows (halone.suffix (suffix_of_cons helse))
    refine ⟨_, ?_, hyields.continues_else operand operand' loc loc'⟩
    rw [helse, show ts = us ++ c₁.rest from hus, hend]
    simp
  | @elif operand loc ts cond yes no _ c₁ _ helif hcond hyes hno =>
    have halone' := halone.suffix (suffix_of_cons helif)
    have hshows := hyes.shows halone'
    obtain ⟨vs, hvs, hcont⟩ := hno.continues (halone'.suffix hshows.suffix)
    obtain ⟨us, hus, hyields⟩ := hshows
    refine ⟨⟨.directive "elif" operand, loc⟩ :: (us ++ vs), ?_, ?_⟩
    · rw [helif, show ts = us ++ c₁.rest from hus, hvs]
      simp
    · have hcontinues := hyields.continues_elif hcond hcont loc
      by_cases hv : cond.eval defined
      · simpa [remainingList, remaining, hv] using hcontinues
      · simpa [remainingList, remaining, hv] using hcontinues
termination_by (sizeOf no, 1)
end
end

/-- What holds of every declaration and entry point that is read from some tokens holds of all items
that are, in whichever branch or block. -/
theorem forall_items {tokens : List Placed}
    (hdeclaration : ∀ {d c c'}, c.rest <:+ tokens → ReadsDeclaration d c c' → P d.item)
    (hentry : ∀ {f c c'}, ReadsFunction f c c' → ∀ e : EntryPoint, e.function = f → P (.entry e))
    (hbranch : ∀ cond yes no loc, P (.branch cond yes no loc))
    (hblock : ∀ stage features name is loc, P (.block stage features name is loc))
    (h : Reads (items fuel ctx p) c (is, stop, p') c') (hc : c.rest <:+ tokens) :
    c'.rest <:+ tokens ∧ ∀ i ∈ Item.nestedList is, P i := by
  induction fuel generalizing ctx p is stop p' c c' with
  | zero => simp [items] at h
  | succ fuel ih =>
    have hnil : ∀ i ∈ Item.nestedList [], P i := by simp [Item.nestedList]
    have hcons {i : Item} {is : List Item} (hi : ∀ j ∈ i.nested, P j)
        (his : ∀ j ∈ Item.nestedList is, P j) : ∀ j ∈ Item.nestedList (i :: is), P j :=
      forall_mem_append.2 ⟨hi, his⟩
    cases items_step h with
    | stop => exact ⟨hc, hnil⟩
    | semicolon hrest hmore => exact ih hmore ((suffix_of_cons hrest).trans hc)
    | mark hmark hmore =>
      rw [prefixMarker_eq] at hmark
      obtain ⟨_, hread, rfl⟩ := reads_map.1 hmark
      exact ih hmore ((advances_entryMark.passes hread).suffix.trans hc)
    | @declaration d _ _ _ _ _ hread hmore =>
      refine (ih hmore (hread.passes.suffix.trans hc)).imp_right (hcons fun j hj => ?_)
      obtain rfl : j = d.item := by cases d <;> simpa [Declaration.item, Item.nested] using hj
      exact hdeclaration hc hread
    | entry hread _ hmore =>
      refine (ih hmore (hread.passes.suffix.trans hc)).imp_right (hcons fun j hj => ?_)
      obtain rfl := mem_singleton.1 hj
      exact hentry hread _ rfl
    | conditional hrest _ hcond hmore =>
      have hwrap {cond yes no loc} (hyes : ∀ i ∈ Item.nestedList yes, P i)
          (hno : ∀ i ∈ Item.nestedList no, P i) : ∀ i ∈ (Item.branch cond yes no loc).nested, P i :=
        forall_mem_cons.2 ⟨hbranch _ _ _ _, forall_mem_append.2 ⟨hyes, hno⟩⟩
      obtain ⟨hafter, hyes, hno⟩ := hcond.forall_branches (· <:+ tokens)
        (fun is => ∀ i ∈ Item.nestedList is, P i) ((suffix_of_cons hrest).trans hc) hnil
        (fun h => (suffix_cons _ _).trans h)
        (fun _ _ _ _ hyes hno => hcons (hwrap hyes hno) hnil)
        (fun hbranch hc => by
          obtain ⟨⟨js, stop, q⟩, _, hitems, hpure⟩ := reads_bind.1 hbranch
          obtain ⟨heq, rfl⟩ := reads_pure.1 hpure
          cases heq
          exact ih hitems hc)
      exact (ih hmore hafter).imp_right (hcons (hwrap hyes hno))
    | block hrest _ _ hinner hmore =>
      obtain ⟨hafter, hinside⟩ := ih hinner ((suffix_of_cons hrest).trans hc)
      exact (ih hmore ((tail_suffix _).trans hafter)).imp_right
        (hcons (forall_mem_cons.2 ⟨hblock _ _ _ _ _, hinside⟩))

end Reader

namespace Program
variable {P : Item → Prop} {file : String} {tokens : List Placed} {p : Program}

theorem exists_reads_items (h : Program.read file tokens = .ok p) : ∃ fuel c q c',
    c.rest = tokens ∧ Reader.Reads (Reader.items fuel {} {}) c (p.items, none, q) c' := by
  simp only [Program.read, Success.bind_eq_ok, Success.pure_eq_ok] at h
  obtain ⟨⟨p', c'⟩, hread, rfl⟩ := h
  obtain ⟨⟨is, stop, q⟩, c₁, hitems, hrest⟩ := Reader.reads_bind.1 hread
  simp only [Reader.withFuel, Reader.reads_bind] at hitems
  obtain ⟨_, _, hget, hitems⟩ := hitems
  obtain ⟨rfl, rfl⟩ := Reader.reads_get.1 hget
  dsimp only at hrest
  split at hrest
  · simp at hrest
  · have hpure := Reader.reads_noPending_bind hrest
    obtain ⟨rfl, -⟩ := Reader.reads_pure.1 hpure
    exact ⟨_, _, q, c₁, rfl, hitems⟩

theorem forall_allItems
    (hdeclaration : ∀ {d c c'}, c.rest <:+ tokens → Reader.ReadsDeclaration d c c' → P d.item)
    (hentry : ∀ {f c c'}, Reader.ReadsFunction f c c' → ∀ e : EntryPoint, e.function = f →
      P (.entry e)) (hbranch : ∀ cond yes no loc, P (.branch cond yes no loc))
    (hblock : ∀ stage features name is loc, P (.block stage features name is loc))
    (h : Program.read file tokens = .ok p) : ∀ i ∈ p.allItems, P i := by
  obtain ⟨fuel, c, q, c', rfl, hitems⟩ := exists_reads_items h
  exact (Reader.forall_items hdeclaration hentry hbranch hblock hitems (suffix_refl _)).2

end Program
end ShaderDialect
