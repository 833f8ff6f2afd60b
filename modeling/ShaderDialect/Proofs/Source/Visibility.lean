import ShaderDialect.Proofs.Directive
import ShaderDialect.Proofs.Source.Events

/-! How often the output of a shader block sees an included file. A file is spliced at its first
include outside of all blocks, and at its first include in a block that no include outside precedes,
whether these are active or not. The output sees the file once exactly if one of the two is
active. -/
namespace ShaderDialect.Source

open List Directive Success

/-- Whether, of the tokens that open or close a shader block, the next one closes it. -/
def closesNext : List Event → Bool
  | [] => false
  | .token t :: es =>
    if opensBlock t.token then false else closesBlock t.token || closesNext es
  | .inclusion _ _ :: es => closesNext es

structure Site where
  event : Event
  /-- The number of the shader block around it. -/
  block : Option Nat
  /-- Whether no branch around it is dropped. -/
  active : Bool
  deriving DecidableEq

/-- Where an event stands, after those before it. -/
structure Place where
  /-- How many shader blocks have been opened. -/
  blocks : Nat := 0
  block : Option Nat := none
  branches : List Branch := []

section
variable (defined : String → Bool)

def branchesAfter (token : Token) (branches : List Branch) : List Branch :=
  match conditional? token with
  | some (name, operand) => (turn? defined name operand branches).getD branches
  | none => branches

/-- The place after an event. A block is opened only if it is closed before another one is. -/
def Place.next (p : Place) (rest : List Event) : Event → Place
  | .inclusion _ _ => p
  | .token t =>
    let branches := branchesAfter defined t.token p.branches
    if opensBlock t.token then
      if closesNext rest then ⟨p.blocks + 1, some p.blocks, branches⟩
      else ⟨p.blocks, none, branches⟩
    else if closesBlock t.token then ⟨p.blocks, none, branches⟩
    else ⟨p.blocks, p.block, branches⟩

def Place.sites : Place → List Event → List Site
  | _, [] => []
  | p, e :: es => ⟨e, p.block, keeps p.branches⟩ :: (p.next defined es e).sites es

/-- The events of a source, with their places when exactly the given symbols are defined. -/
def sites (es : List Event) : List Site := Place.sites defined {} es

end

namespace Site

/-- Whether a site stands outside of all blocks or in the given one. -/
def seenBy (block : Option Nat) (s : Site) : Bool := s.block == none || s.block == block

def includes (file : Path) (s : Site) : Bool := s.event.file? == some file

def splices (file : Path) (s : Site) : Bool := s.event == .inclusion file true

def kept? (s : Site) : Option Placed :=
  s.event.token?.filter fun t => s.active && (conditional? t.token).isNone

end Site

/-- A file is included at a site that a block sees. -/
def Held (past : List Site) (block : Option Nat) (file : Path) : Prop :=
  ∃ s ∈ past, s.seenBy block = true ∧ s.includes file = true

/-- Each site splices the file that it includes exactly if no site before it, outside of all blocks
or in the same one, includes the file. -/
def SplicesFirst : (past : List Site) → List Site → Prop
  | _, [] => True
  | past, s :: rest =>
    (∀ file, s.includes file = true → (s.splices file = true ↔ ¬ Held past s.block file)) ∧
      SplicesFirst (past ++ [s]) rest

variable {s : Site} {around : Option Nat} {other : Path} {spliced : Bool}

section Tracking
variable {defined : String → Bool} {past : List Site} {p : Place} {e : Event} {es : List Event}
  {c : Scope} {root file : Path} {block : Option Nat} {t : Placed} {active : Bool}

theorem held_append {past' : List Site} :
    Held (past ++ past') block file ↔ Held past block file ∨ Held past' block file := by
  simp only [Held, mem_append, or_and_right, exists_or]

theorem held_singleton : Held [s] block file ↔ s.seenBy block = true ∧ s.includes file = true := by
  simp [Held]

theorem Held.seen (h : Held past none file) : Held past block file := by
  obtain ⟨s, hs, hb, hf⟩ := h
  refine ⟨s, hs, ?_, hf⟩
  simp only [Site.seenBy, Bool.or_self] at hb
  simp [Site.seenBy, hb]

/-- The scope of the loader, in terms of the sites that have been passed. -/
structure Tracks (root : Path) (past : List Site) (p : Place) (rest : List Event) (c : Scope) :
    Prop where
  seen : ∀ file, file ∈ c.seen ↔ file = root ∨ Held past p.block file
  /-- The block around the place ends, and with it what it has included. -/
  inside : ∀ k, p.block = some k → k < p.blocks ∧ closesNext rest = true ∧
    ∃ files, c.outside = some files ∧ ∀ file, file ∈ files ↔ file = root ∨ Held past none file
  outside : p.block = none → closesNext rest = true → c.outside = none
  earlier : ∀ s ∈ past, ∀ k, s.block = some k → k < p.blocks

theorem tracks_opening (root : Path) (es : List Event) : Tracks root [] {} es ⟨[root], none⟩ := by
  refine ⟨?_, ?_, fun _ _ => rfl, ?_⟩
  · simp [Held]
  · intro k hk
    cases hk
  · simp

theorem held_token :
    Held (past ++ [⟨.token t, around, active⟩]) block file ↔ Held past block file := by
  simp [held_append, held_singleton, Site.includes]

theorem held_inclusion :
    Held (past ++ [⟨.inclusion other spliced, around, active⟩]) block file ↔
      Held past block file ∨ (around = none ∨ around = block) ∧ other = file := by
  simp [held_append, held_singleton, Site.includes, Site.seenBy]

/-- A block that is yet to come sees what stands outside of all blocks. -/
theorem held_of_later {k : Nat} (h : ∀ s ∈ past, ∀ j, s.block = some j → j < k) :
    Held past (some k) file ↔ Held past none file := by
  refine ⟨?_, Held.seen⟩
  rintro ⟨s, hs, hb, hf⟩
  refine ⟨s, hs, ?_, hf⟩
  have hne : s.block ≠ some k := fun he => Nat.lt_irrefl k (h s hs k he)
  simpa [Site.seenBy, hne] using hb

theorem Tracks.earlier_snoc (h : Tracks root past p (e :: es) c) (active : Bool) :
    ∀ s ∈ past ++ [⟨e, p.block, active⟩], ∀ k, s.block = some k → k < p.blocks := by
  intro s hs k hk
  rcases mem_append.1 hs with hs | hs
  · exact h.earlier s hs k hk
  · obtain rfl := mem_singleton.1 hs
    exact (h.inside k hk).1

theorem Tracks.opens (h : Tracks root past p (.token t :: es) c) (ho : opensBlock t.token = true) :
    Tracks root (past ++ [⟨.token t, p.block, active⟩]) (p.next defined es (.token t)) es
      (c.next (.token t)) := by
  have hblock : p.block = none := by
    cases hb : p.block with
    | none => rfl
    | some k =>
      have hcloses := (h.inside k hb).2.1
      simp [closesNext, ho] at hcloses
  have hseen : ∀ file, file ∈ c.seen ↔ file = root ∨ Held past none file := hblock ▸ h.seen
  have hearlier := h.earlier_snoc active
  by_cases hn : closesNext es
  · simp only [Place.next, Scope.next, ho, hn, if_true]
    refine ⟨?_, ?_, ?_, ?_⟩
    · intro file
      rw [held_token, held_of_later h.earlier]
      exact hseen file
    · intro k hk
      cases hk
      refine ⟨Nat.lt_succ_self _, hn, c.seen, rfl, ?_⟩
      intro file
      rw [held_token]
      exact hseen file
    · intro hb
      cases hb
    · intro s hs k hk
      exact Nat.lt_succ_of_lt (hearlier s hs k hk)
  · simp only [Place.next, Scope.next, ho, hn, if_true]
    refine ⟨?_, ?_, ?_, hearlier⟩
    · intro file
      rw [held_token]
      exact hseen file
    · intro k hk
      cases hk
    · intro _ hcloses
      exact absurd hcloses hn

theorem Tracks.closes (h : Tracks root past p (.token t :: es) c) (ho : opensBlock t.token = false)
    (hc : closesBlock t.token = true) :
    Tracks root (past ++ [⟨.token t, p.block, active⟩]) (p.next defined es (.token t)) es
      (c.next (.token t)) := by
  simp only [Place.next, Scope.next, ho, hc, Bool.false_eq_true, if_false, if_true]
  refine ⟨?_, ?_, fun _ _ => rfl, h.earlier_snoc active⟩
  · intro file
    rw [held_token]
    cases hb : p.block with
    | none =>
      have hout := h.outside hb (by simp [closesNext, ho, hc])
      rw [hout, ← hb]
      exact h.seen file
    | some k =>
      obtain ⟨-, -, files, hout, hfiles⟩ := h.inside k hb
      rw [hout]
      exact hfiles file
  · intro k hk
    cases hk

theorem Tracks.passes (h : Tracks root past p (.token t :: es) c) (ho : opensBlock t.token = false)
    (hc : closesBlock t.token = false) :
    Tracks root (past ++ [⟨.token t, p.block, active⟩]) (p.next defined es (.token t)) es
      (c.next (.token t)) := by
  have hcloses : closesNext (.token t :: es) = closesNext es := by simp [closesNext, ho, hc]
  simp only [Place.next, Scope.next, ho, hc, Bool.false_eq_true, if_false]
  refine ⟨?_, ?_, ?_, h.earlier_snoc active⟩
  · intro file
    rw [held_token]
    exact h.seen file
  · intro k hk
    obtain ⟨hlt, hn, files, hout, hfiles⟩ := h.inside k hk
    refine ⟨hlt, hcloses ▸ hn, files, hout, ?_⟩
    intro file
    rw [held_token]
    exact hfiles file
  · intro hb hn
    exact h.outside hb (hcloses ▸ hn)

theorem Tracks.includes (h : Tracks root past p (.inclusion other spliced :: es) c)
    (he : c.Fits (.inclusion other spliced)) :
    Tracks root (past ++ [⟨.inclusion other spliced, p.block, active⟩]) p es
      (c.next (.inclusion other spliced)) := by
  have hseen : ∀ file, file ∈ (c.next (.inclusion other spliced)).seen ↔
      file ∈ c.seen ∨ other = file := by
    intro file
    cases spliced with
    | true => simp [Scope.next, or_comm, eq_comm]
    | false =>
      have hin : other ∈ c.seen := by simpa [Scope.Fits] using he
      refine ⟨.inl, ?_⟩
      rintro (hf | rfl)
      · exact hf
      · exact hin
  have hout : (c.next (.inclusion other spliced)).outside = c.outside := by
    cases spliced <;> rfl
  refine ⟨?_, ?_, ?_, h.earlier_snoc active⟩
  · intro file
    rw [hseen, h.seen, held_inclusion, or_assoc]
    simp
  · intro k hk
    obtain ⟨hlt, hn, files, houter, hfiles⟩ := h.inside k hk
    refine ⟨hlt, hn, files, hout.trans houter, ?_⟩
    intro file
    rw [held_inclusion, hk]
    simp [hfiles file]
  · intro hb hn
    exact hout.trans (h.outside hb hn)

theorem Tracks.next (h : Tracks root past p (e :: es) c) (he : c.Fits e) :
    Tracks root (past ++ [⟨e, p.block, active⟩]) (p.next defined es e) es (c.next e) := by
  cases e with
  | token t =>
    cases ho : opensBlock t.token with
    | true => exact h.opens ho
    | false =>
      cases hc : closesBlock t.token with
      | true => exact h.closes ho hc
      | false => exact h.passes ho hc
  | inclusion other spliced => exact h.includes he

/-- An event fits the scope exactly if its site splices the first include that its block sees. -/
theorem Tracks.fits_iff (h : Tracks root past p (e :: es) c)
    (hroot : ∀ spliced, e ≠ .inclusion root spliced) :
    c.Fits e ↔ ∀ file, Site.includes file ⟨e, p.block, active⟩ = true →
      (Site.splices file ⟨e, p.block, active⟩ = true ↔ ¬ Held past p.block file) := by
  cases e with
  | token t => simp [Scope.Fits, Site.includes]
  | inclusion other spliced =>
    have hne : other ≠ root := fun heq => hroot spliced (heq ▸ rfl)
    simp [Scope.Fits, Site.includes, Site.splices, h.seen, hne]

/-- What the loader splices are the first includes that are seen from where they stand. -/
theorem once_iff_splicesFirst (h : Tracks root past p es c)
    (hroot : ∀ spliced, .inclusion root spliced ∉ es) :
    Once c es ↔ SplicesFirst past (Place.sites defined p es) := by
  induction es generalizing past p c with
  | nil => simp [Once, Place.sites, SplicesFirst]
  | cons e es ih =>
    have hhead : ∀ spliced, e ≠ .inclusion root spliced := by
      intro spliced heq
      exact hroot spliced (heq ▸ mem_cons_self)
    have htail : ∀ spliced, .inclusion root spliced ∉ es :=
      fun spliced hm => hroot spliced (mem_cons_of_mem e hm)
    simp only [Once, Place.sites, SplicesFirst, ← h.fits_iff hhead]
    exact and_congr_right fun he => ih (h.next he) htail

end Tracking

/-- How often a file is spliced at active sites that the output of a block sees. -/
def contributions (output : Nat) (file : Path) (sites : List Site) : Nat :=
  sites.countP fun s => s.seenBy (some output) && (s.active && s.splices file)

/-- A file is included at an active site that the output of a block sees. -/
def Named (output : Nat) (file : Path) (sites : List Site) : Prop :=
  ∃ s ∈ sites, s.seenBy (some output) = true ∧ s.active = true ∧ s.includes file = true

instance (output : Nat) (file : Path) (sites : List Site) : Decidable (Named output file sites) :=
  inferInstanceAs (Decidable (∃ s ∈ sites, _))

/-- The include of a file that stands first among those that a block sees, if it is the block's
own. -/
def lead? (block : Option Nat) (file : Path) (sites : List Site) : Option Site :=
  (sites.find? fun s => s.seenBy block && s.includes file).filter (·.block == block)

section Counting
variable {sites past : List Site} {block : Option Nat} {output : Nat} {file : Path}

theorem Site.includes_of_splices (h : s.splices file = true) : s.includes file = true := by
  have he : s.event = .inclusion file true := by simpa [splices] using h
  simp [includes, he]

theorem Site.seenBy_trans {s' : Site} (h : s'.seenBy s.block = true) (hs : s.seenBy block = true) :
    s'.seenBy block = true := by
  simp only [seenBy, Bool.or_eq_true, beq_iff_eq] at h hs ⊢
  rcases h with h | h
  · exact .inl h
  · exact h ▸ hs

theorem SplicesFirst.splices_iff {before after : List Site}
    (h : SplicesFirst past (before ++ s :: after)) (hf : s.includes file = true) :
    s.splices file = true ↔ ¬ Held (past ++ before) s.block file := by
  induction before generalizing past with
  | nil =>
    rw [append_nil]
    exact h.1 file hf
  | cons s' before ih =>
    rw [append_cons past s' before]
    exact ih h.2

/-- In each block a file is spliced at most once. -/
theorem filter_splices (h : SplicesFirst [] sites) :
    sites.filter (fun s => s.block == block && s.splices file) =
      (lead? block file sites).toList := by
  cases hfind : sites.find? fun s => s.seenBy block && s.includes file with
  | none =>
    rw [find?_eq_none] at hfind
    simp only [lead?, find?_eq_none.2 hfind, Option.filter_none, Option.toList_none,
      filter_eq_nil_iff, Bool.and_eq_true, beq_iff_eq, not_and]
    intro s hs hb hsplices
    apply hfind s hs
    simp [Site.seenBy, hb, Site.includes_of_splices hsplices]
  | some s =>
    obtain ⟨hs, before, after, rfl, hbefore⟩ := find?_eq_some_iff_append.1 hfind
    simp only [Bool.and_eq_true] at hs
    have hnone : ∀ s' ∈ before, (s'.block == block && s'.splices file) = false := by
      intro s' hs'
      have hnot := hbefore s' hs'
      by_contra hne
      simp only [Bool.not_eq_false, Bool.and_eq_true, beq_iff_eq] at hne
      simp [Site.seenBy, hne.1, Site.includes_of_splices hne.2] at hnot
    have hlater : ∀ s' ∈ after, (s'.block == block && s'.splices file) = false := by
      intro s' hs'
      obtain ⟨front, back, rfl⟩ := append_of_mem hs'
      by_contra hne
      simp only [Bool.not_eq_false, Bool.and_eq_true, beq_iff_eq] at hne
      obtain ⟨rfl, hsplices⟩ := hne
      rw [← cons_append, ← append_assoc] at h
      refine (h.splices_iff (Site.includes_of_splices hsplices)).1 hsplices ⟨s, ?_, hs⟩
      simp
    have hfirst : s.splices file = true := by
      refine (h.splices_iff hs.2).2 ?_
      rintro ⟨s', hs', hseen, hf⟩
      have hnot := hbefore s' (by simpa using hs')
      simp [Site.seenBy_trans hseen hs.1, hf] at hnot
    rw [lead?, hfind, filter_append, filter_eq_nil_iff.2 (by simpa using hnone),
      filter_cons, filter_eq_nil_iff.2 (by simpa using hlater)]
    by_cases hb : s.block = block
    · simp [hb, hfirst, Option.filter]
    · simp [hb, Option.filter]

/-- Of the includes that a block sees, its own and those outside are spliced each at most once. -/
theorem countP_splices (h : SplicesFirst [] sites) :
    sites.countP (fun s => s.block == block && (s.active && s.splices file)) =
      ((lead? block file sites).any Site.active).toNat := by
  have hfilter : sites.countP (fun s => s.block == block && (s.active && s.splices file)) =
      (sites.filter fun s => s.block == block && s.splices file).countP Site.active := by
    rw [countP_filter]
    congr 1
    funext s
    rw [Bool.and_left_comm]
  rw [hfilter, filter_splices h]
  cases lead? block file sites with
  | none => rfl
  | some s => cases hs : s.active <;> simp [hs]

theorem contributions_eq (h : SplicesFirst [] sites) : contributions output file sites =
    ((lead? none file sites).any Site.active).toNat +
      ((lead? (some output) file sites).any Site.active).toNat := by
  rw [← countP_splices h, ← countP_splices h, contributions,
    countP_eq_countP_filter_add sites _ (·.block == none), countP_filter,
    countP_filter]
  congr 2
  · funext s
    cases hb : s.block <;> simp [Site.seenBy, hb]
  · funext s
    cases hb : s.block <;> simp [Site.seenBy, hb]

end Counting

/-- What remains of the tokens when branches are dropped stands at active sites. -/
theorem kept_of_resolve {defined : String → Bool} {p : Place} {es : List Event} {kept : List Placed}
    (h : resolve defined p.branches (es.filterMap Event.token?) = some kept) :
    kept = (p.sites defined es).filterMap Site.kept? := by
  induction es generalizing p kept with
  | nil =>
    simp only [filterMap_nil, resolve] at h
    split at h
    · exact (Option.some.inj h).symm
    · cases h
  | cons e es ih =>
    cases e with
    | inclusion other spliced =>
      rw [filterMap_cons_none rfl] at h
      rw [Place.sites, filterMap_cons_none rfl]
      exact ih h
    | token t =>
      have hbranches : (p.next defined es (.token t)).branches =
          branchesAfter defined t.token p.branches := by
        simp only [Place.next]
        split_ifs <;> rfl
      rw [filterMap_cons] at h
      simp only [Event.token?, resolve] at h
      cases hc : conditional? t.token with
      | some directive =>
        simp only [hc, Option.bind_eq_some_iff] at h
        obtain ⟨open_, hturn, h⟩ := h
        have hafter : branchesAfter defined t.token p.branches = open_ := by
          simp [branchesAfter, hc, hturn]
        rw [Place.sites, filterMap_cons_none (by simp [Site.kept?, hc])]
        exact ih (by rw [hbranches, hafter]; exact h)
      | none =>
        simp only [hc, Option.map_eq_some_iff] at h
        obtain ⟨rest, h, rfl⟩ := h
        have hafter : branchesAfter defined t.token p.branches = p.branches := by
          simp [branchesAfter, hc]
        have hrest := ih (p := p.next defined es (.token t)) (by rw [hbranches, hafter]; exact h)
        rw [hrest, Place.sites, filterMap_cons]
        by_cases hk : keeps p.branches <;> simp [Site.kept?, Option.filter, hc, hk]

/-- The events of a source: they come from its files, and each file is spliced where its scope first
includes it. -/
def Trace (t : FileTree) (paths : List Path) (p : Path) (es : List Event) : Prop :=
  (∃ file, Reads t paths p file es) ∧ ∀ defined, SplicesFirst [] (sites defined es)

/-- In the stream that the output of a block sees, every file that is included is there once. -/
def VisibleOnce (output : Nat) (sites : List Site) : Prop :=
  ∀ file, Named output file sites → contributions output file sites = 1

theorem trace_iff {t : FileTree} {paths : List Path} {p file : Path} {es : List Event}
    (h : Reads t paths p file es) : Trace t paths p es ↔ Once ⟨[file], none⟩ es := by
  obtain ⟨-, -, -, -, -, -, hroot⟩ := id h
  constructor
  · intro ht
    exact (once_iff_splicesFirst (tracks_opening file es) hroot).2 (ht.2 fun _ => false)
  · intro ho
    refine ⟨⟨file, h⟩, ?_⟩
    intro defined
    exact (once_iff_splicesFirst (tracks_opening file es) hroot).1 ho

/-- A source is read in one way. For the symbols that are defined and the output of a block, every
file that the output sees included is there once exactly if one, and not both, of two includes is
active: the first one outside of all blocks, and the first one in the block unless one outside
stands before it. -/
theorem load_visibleOnce_iff {t : FileTree} {paths : List Path} {p : Path} {src : Source}
    (h : load t paths p = .ok src) :
    ∃ events, (∀ es, Trace t paths p es ↔ es = events) ∧
      src.tokens = events.filterMap Event.token? ∧
      ∀ defined,
        (∀ kept, resolve defined [] src.tokens = some kept →
          kept = (sites defined events).filterMap Site.kept?) ∧
        ∀ output, VisibleOnce output (sites defined events) ↔
          ∀ file, Named output file (sites defined events) →
            ((lead? none file (sites defined events)).any Site.active ^^
              (lead? (some output) file (sites defined events)).any Site.active) = true := by
  obtain ⟨file, events, hreads, honce, htokens⟩ := reads_of_load h
  have htrace : Trace t paths p events := (trace_iff hreads).2 honce
  refine ⟨events, ?_, htokens, ?_⟩
  · intro es
    constructor
    · intro ht
      obtain ⟨file', hreads'⟩ := ht.1
      exact hreads'.unique ((trace_iff hreads').1 ht) hreads honce
    · rintro rfl
      exact htrace
  · intro defined
    refine ⟨?_, ?_⟩
    · intro kept hkept
      rw [htokens] at hkept
      exact kept_of_resolve hkept
    · intro output
      refine forall₂_congr fun file _ => ?_
      rw [contributions_eq (htrace.2 defined)]
      cases (lead? none file (sites defined events)).any Site.active <;>
        cases (lead? (some output) file (sites defined events)).any Site.active <;> decide

/-- A header is included where nothing is defined and again after it, and another one in a block and
again after it. -/
def twoHeaders : FileTree :=
  ⟨[], [(["m"], .file (Text.utf8 ("#ifdef A\n#include \"x\"\n#endif\n#include \"x\"\n" ++
      "#comp c\n#include \"y\"\n#end\n#include \"y\"")) false),
    (["x"], .file (Text.utf8 "x") false), (["y"], .file (Text.utf8 "y") false)]⟩

def twoHeadersEvents : List Event :=
  [.token ⟨.directive "ifdef" "A", ⟨"m", 1⟩⟩, .inclusion ⟨"/x"⟩ true, .token ⟨.word "x", ⟨"/x", 1⟩⟩,
    .token ⟨.directive "endif" "", ⟨"m", 3⟩⟩, .inclusion ⟨"/x"⟩ false,
    .token ⟨.directive "comp" "c", ⟨"m", 5⟩⟩, .inclusion ⟨"/y"⟩ true, .token ⟨.word "y", ⟨"/y", 1⟩⟩,
    .token ⟨.directive "end" "", ⟨"m", 7⟩⟩, .inclusion ⟨"/y"⟩ true, .token ⟨.word "y", ⟨"/y", 1⟩⟩]

theorem finds_twoHeaders : Finds twoHeaders [] (Path.parent? ⟨"/m"⟩) "\"x\"" ⟨"/x"⟩ ⟨"/x"⟩ ∧
    Finds twoHeaders [] (Path.parent? ⟨"/m"⟩) "\"y\"" ⟨"/y"⟩ ⟨"/y"⟩ :=
  ⟨⟨"x", by decide +kernel⟩, ⟨"y", by decide +kernel⟩⟩

theorem trace_twoHeaders : Trace twoHeaders [] ⟨"m"⟩ twoHeadersEvents := by
  obtain ⟨hx, hy⟩ := finds_twoHeaders
  have htexts : twoHeaders.readText ⟨"/x"⟩ = .ok "x" ∧ twoHeaders.readText ⟨"/y"⟩ = .ok "y" ∧
      tokenize "x" = .ok [⟨.word "x", 1⟩] ∧ tokenize "y" = .ok [⟨.word "y", 1⟩] := by
    decide +kernel
  obtain ⟨hreadx, hready, hlexx, hlexy⟩ := htexts
  have hreads : Reads twoHeaders [] ⟨"m"⟩ ⟨"/m"⟩ twoHeadersEvents := by
    refine ⟨_, [⟨.directive "ifdef" "A", 1⟩, ⟨.directive "include" "\"x\"", 2⟩,
      ⟨.directive "endif" "", 3⟩, ⟨.directive "include" "\"x\"", 4⟩, ⟨.directive "comp" "c", 5⟩,
      ⟨.directive "include" "\"y\"", 6⟩, ⟨.directive "end" "", 7⟩,
      ⟨.directive "include" "\"y\"", 8⟩], by decide +kernel, rfl, by decide +kernel, ?_,
      by decide⟩
    exact .token rfl (.spliced rfl hx hreadx hlexx (.token rfl .nil) (.token rfl (.skipped rfl hx
      (.token rfl (.spliced rfl hy hready hlexy (.token rfl .nil) (.token rfl
      (.spliced rfl hy hready hlexy (.token rfl .nil) .nil)))))))
  exact (trace_iff hreads).2 (by decide)

/-- One header is not there at all, as the branch that includes it first is dropped. The other one
is there twice, from the block and from behind it. -/
theorem load_visibleOnce_iff_twoHeaders :
    ∃ src events, load twoHeaders [] ⟨"m"⟩ = .ok src ∧
      (∀ es, Trace twoHeaders [] ⟨"m"⟩ es ↔ es = events) ∧
      (Named 0 ⟨"/x"⟩ (sites (fun _ => false) events) ∧
        contributions 0 ⟨"/x"⟩ (sites (fun _ => false) events) = 0) ∧
      (Named 0 ⟨"/y"⟩ (sites (fun _ => false) events) ∧
        contributions 0 ⟨"/y"⟩ (sites (fun _ => false) events) = 2) ∧
      ¬ VisibleOnce 0 (sites (fun _ => false) events) ∧
      VisibleOnce 1 (sites (fun _ => true) events) := by
  have hload : (load twoHeaders [] ⟨"m"⟩).map (·.dependencies) =
      .ok [⟨"/m"⟩, ⟨"/x"⟩, ⟨"/y"⟩] := by decide +kernel
  obtain ⟨src, hsrc, -⟩ := map_eq_ok.1 hload
  obtain ⟨events, htrace, -, hvisible⟩ := load_visibleOnce_iff hsrc
  obtain rfl := (htrace twoHeadersEvents).1 trace_twoHeaders
  refine ⟨src, twoHeadersEvents, hsrc, htrace, by decide +kernel, by decide +kernel, ?_, ?_⟩
  · rw [(hvisible _).2]
    intro h
    exact absurd (h ⟨"/x"⟩ (by decide +kernel)) (by decide +kernel)
  · rw [(hvisible _).2]
    rintro file ⟨s, hs, -, -, hf⟩
    have hfiles : ∀ s ∈ sites (fun _ => true) twoHeadersEvents,
        s.event.file? ∈ [none, some ⟨"/x"⟩, some ⟨"/y"⟩] := by decide +kernel
    have hfile := hfiles s hs
    rw [beq_iff_eq.1 hf] at hfile
    simp only [mem_cons, Option.some.injEq, not_mem_nil, or_false, reduceCtorEq,
      false_or] at hfile
    rcases hfile with rfl | rfl
    · decide +kernel
    · decide +kernel

end ShaderDialect.Source
