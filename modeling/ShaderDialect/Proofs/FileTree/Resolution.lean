import ShaderDialect.FileTree
import ShaderDialect.Proofs.Success

/-! Where paths lead: without links, a path that leads anywhere leads to the names that it
spells. -/
namespace ShaderDialect

open List Success

namespace Text

theorem splitAt_eq_splitOn (sep : Char) (cs : List Char) : splitAt sep cs = cs.splitOn sep := by
  induction cs with
  | nil => rfl
  | cons c cs ih =>
    rw [splitAt, splitOn_cons_eq_if_modifyHead, ih]
    by_cases h : c = sep
    · simp [h]
    · cases hs : cs.splitOn sep with
      | nil => exact absurd hs (splitOn_ne_nil _ _)
      | cons part parts => simp [h]

theorem not_mem_of_mem_splitOn {sep : Char} {cs part : List Char} (h : part ∈ cs.splitOn sep) :
    sep ∉ part := by
  induction cs generalizing part with
  | nil => simp_all
  | cons c cs ih =>
    rw [splitOn_cons_eq_if_modifyHead] at h
    split at h
    · rcases mem_cons.1 h with rfl | h
      · simp
      · exact ih h
    · next hc =>
      cases hs : cs.splitOn sep with
      | nil => exact absurd hs (splitOn_ne_nil _ _)
      | cons first parts =>
        rw [hs, modifyHead_cons] at h
        rcases mem_cons.1 h with rfl | h
        · have hfirst : sep ∉ first := ih (hs ▸ mem_cons_self)
          rw [mem_cons, not_or]
          exact ⟨fun he => hc (by simp [he]), hfirst⟩
        · exact ih (hs ▸ mem_cons_of_mem _ h)

end Text

namespace Path
variable {ss : List String} {ending : String} (s : String)

theorem segments_eq : segments ⟨s⟩ = (s.toList.splitOn '/').map String.ofList := by
  simp [segments, Text.splitAt_eq_splitOn]

variable (p : Path)

theorem segments_ne_nil : p.segments ≠ [] := by
  simp [segments, Text.splitAt_eq_splitOn, splitOn_ne_nil]

theorem segments_append_slash (s' : String) :
    segments ⟨s ++ "/" ++ s'⟩ = segments ⟨s⟩ ++ segments ⟨s'⟩ := by
  simp [segments_eq, splitOn_append_cons_self]

theorem segments_of_not_mem {s : String} (h : '/' ∉ s.toList) : segments ⟨s⟩ = [s] := by
  simp [segments_eq, splitOn_eq_singleton h]

theorem not_mem_of_mem_segments {p : Path} {s : String} (h : s ∈ p.segments) : '/' ∉ s.toList := by
  obtain ⟨cs, hcs, rfl⟩ := mem_map.1 (segments_eq p.text ▸ h)
  simpa using Text.not_mem_of_mem_splitOn hcs

theorem intercalate_segments : "/".intercalate p.segments = p.text := by
  rw [← String.toList_inj, String.toList_intercalate, segments_eq, map_map]
  simp [Function.comp_def, intercalate_splitOn '/']

theorem segments_intercalate (hne : ss ≠ []) (h : ∀ s ∈ ss, '/' ∉ s.toList) :
    segments ⟨"/".intercalate ss⟩ = ss := by
  rw [segments_eq, String.toList_intercalate]
  have hs : ((['/'] : List Char).intercalate (ss.map String.toList)).splitOn '/' =
      ss.map String.toList :=
    splitOn_intercalate '/' (by simpa using h) (by simpa)
  simp [hs, Function.comp_def]

/-- An ending without slashes belongs to the last segment. -/
theorem segments_append {s : String} (h : '/' ∉ ending.toList) :
    ∃ ss last, segments ⟨s⟩ = ss ++ [last] ∧ segments ⟨s ++ ending⟩ = ss ++ [last ++ ending] := by
  have hs := dropLast_concat_getLast (segments_ne_nil ⟨s⟩)
  generalize (segments ⟨s⟩).dropLast = ss at hs
  generalize (segments ⟨s⟩).getLast (segments_ne_nil ⟨s⟩) = last at hs
  refine ⟨ss, last, hs.symm, ?_⟩
  have hall : ∀ x ∈ ss ++ [last], '/' ∉ x.toList := fun x hx => not_mem_of_mem_segments (hs ▸ hx)
  have ht : s ++ ending = "/".intercalate (ss ++ [last ++ ending]) := by
    have hi : "/".intercalate (ss ++ [last]) = s := hs ▸ intercalate_segments ⟨s⟩
    cases ss with
    | nil => simpa using congrArg (· ++ ending) hi.symm
    | cons first ss =>
      rw [String.intercalate_append_of_ne_nil (by simp) (by simp)] at hi ⊢
      simp [← hi, String.append_assoc]
  rw [ht]
  refine segments_intercalate (by simp) ?_
  simp only [mem_append, mem_singleton] at hall ⊢
  rintro x (hx | rfl)
  · exact hall x (.inl hx)
  · simpa using ⟨hall last (.inr rfl), h⟩

end Path

namespace FileTree
variable {ss : List String} {c : Path.Component} {t t' : FileTree} {k k' : Key}
  {cs : List Path.Component} {p : Path}

/-- The names that one step leads to from others. -/
def move (k : Key) : Path.Component → Key
  | .root => []
  | .here => k
  | .up => k.dropLast
  | .name s => k ++ [s]

def keyOf (t : FileTree) (p : Path) : Key := (p.segments.map stepOf).foldl move (t.start p)

theorem keyOf_congr (h : t'.cwd = t.cwd) (p : Path) : t'.keyOf p = t.keyOf p := by
  simp [keyOf, start, h]

theorem start_congr (h : t'.cwd = t.cwd) (p : Path) : t'.start p = t.start p := by simp [start, h]

def step (t : FileTree) (k : Key) (c : Path.Component) : Except IoFault Key :=
  match t.node? k with
  | none => .error .notFound
  | some (.file _ _) => .error .notADirectory
  | some .directory =>
    match c with
    | .name s => do
      checkName s
      if (t.node? (k ++ [s])).isSome then .ok (k ++ [s]) else .error .notFound
    | .root => .ok []
    | .here => .ok k
    | .up => .ok k.dropLast

theorem walk_step (t : FileTree) (k : Key) (c : Path.Component) (cs : List Path.Component) :
    t.walk k (c :: cs) = t.step k c >>= fun k' => t.walk k' cs := by
  rw [walk.eq_def]
  unfold step
  dsimp only
  cases t.node? k with
  | none => rfl
  | some n =>
    cases n with
    | file content x => rfl
    | directory =>
      cases c with
      | name s =>
        dsimp only
        cases checkName s with
        | error e => rfl
        | ok u => by_cases hs : (t.node? (k ++ [s])).isSome <;> simp [hs, bind, Except.bind]
      | _ => rfl

theorem step_eq_ok : t.step k c = .ok k' ↔ t.node? k = some .directory ∧
    (∀ s, c = .name s → s.utf8ByteSize ≤ nameLimit ∧ (t.node? (k ++ [s])).isSome) ∧
    move k c = k' := by
  unfold step
  cases hn : t.node? k with
  | none => simp
  | some n =>
    cases n with
    | file content executable => simp
    | directory =>
      cases c with
      | name s =>
        simp only [checkName, move]
        by_cases hl : nameLimit < s.utf8ByteSize
        · simp [hl, bind, Except.bind, Nat.not_le.2 hl]
        · cases hs : (t.node? (k ++ [s])).isSome <;>
            simp [hl, hs, bind, Except.bind, Nat.not_lt.1 hl]
      | _ => simp [move]

theorem step_notFound (h : t.step k c = .error .notFound) :
    t.node? k = none ∨ t.node? k = some .directory ∧ t.node? (move k c) = none := by
  unfold step at h
  cases hn : t.node? k with
  | none => exact .inl rfl
  | some n =>
    rw [hn] at h
    cases n with
    | file content x => cases h
    | directory =>
      cases c with
      | name s =>
        rw [bind_eq_error] at h
        rcases h with h | ⟨-, -, h⟩
        · unfold checkName at h
          split at h <;> cases h
        · exact .inr ⟨rfl, by simpa [move] using h⟩
      | _ => cases h

theorem walk_cons :
    t.walk k (c :: cs) = .ok k' ↔ t.node? k = some .directory ∧
      (∀ s, c = .name s → s.utf8ByteSize ≤ nameLimit ∧ (t.node? (k ++ [s])).isSome) ∧
      t.walk (move k c) cs = .ok k' := by
  simp [walk_step, step_eq_ok, and_assoc]

theorem walk_cons_error {e : IoFault} : t.walk k (c :: cs) = .error e ↔
    t.step k c = .error e ∨ t.step k c = .ok (move k c) ∧ t.walk (move k c) cs = .error e := by
  rw [walk_step, bind_eq_error]
  refine or_congr_right ⟨?_, fun h => ⟨_, h⟩⟩
  rintro ⟨k', hstep, h⟩
  obtain rfl := (step_eq_ok.1 hstep).2.2
  exact ⟨hstep, h⟩

theorem walk_append_eq (t : FileTree) (k : Key) (cs ds : List Path.Component) :
    t.walk k (cs ++ ds) = t.walk k cs >>= fun k' => t.walk k' ds := by
  induction cs generalizing k with
  | nil => rfl
  | cons c cs ih => simp [walk_step, ih]

theorem walk_append {ds : List Path.Component} :
    t.walk k (cs ++ ds) = .ok k' ↔ ∃ k₁, t.walk k cs = .ok k₁ ∧ t.walk k₁ ds = .ok k' := by
  rw [walk_append_eq, bind_eq_ok]

theorem walk_concat_here :
    t.walk k (cs ++ [.here]) = .ok k' ↔ t.walk k cs = .ok k' ∧ t.node? k' = some .directory := by
  have hnil (k : Key) : t.walk k [] = .ok k := rfl
  simp only [walk_append, walk_cons, hnil, move]
  simp

/-- Walking makes no choices: if it arrives, it arrives at the names that it was given. -/
theorem walk_eq (h : t.walk k cs = .ok k') : k' = cs.foldl move k := by
  induction cs generalizing k with
  | nil => simpa [walk, eq_comm] using h
  | cons c cs ih => exact ih (walk_cons.1 h).2.2

theorem resolve_eq_ok : t.resolve p = .ok k ↔ checkPath p = .ok () ∧ checkLength p = .ok () ∧
    t.walk (t.start p) (p.segments.map stepOf) = .ok k := by
  simp only [resolve, bind_eq_ok]
  constructor
  · rintro ⟨_, hc, _, hl, hw⟩
    exact ⟨hc, hl, hw⟩
  · rintro ⟨hc, hl, hw⟩
    exact ⟨_, hc, _, hl, hw⟩

theorem resolve_eq (h : t.resolve p = .ok k) : k = t.keyOf p := walk_eq (resolve_eq_ok.1 h).2.2

theorem find_of_resolve (h : t.resolve p = .ok k) : t.find p = .ok k := by
  obtain ⟨hc, -, hw⟩ := resolve_eq_ok.1 h
  simp [find, hc, hw]

/-- The same nodes and more: directories stay, and files stay files. -/
structure Grows (t t' : FileTree) : Prop where
  cwd : t'.cwd = t.cwd
  directory : ∀ k, t.node? k = some .directory → t'.node? k = some .directory
  isSome : ∀ k, (t.node? k).isSome → (t'.node? k).isSome

namespace Grows

theorem refl (t : FileTree) : Grows t t := ⟨rfl, fun _ h => h, fun _ h => h⟩

theorem trans {t'' : FileTree} (h : Grows t t') (h' : Grows t' t'') : Grows t t'' :=
  ⟨h'.cwd.trans h.cwd, fun k hk => h'.directory k (h.directory k hk),
    fun k hk => h'.isSome k (h.isSome k hk)⟩

theorem walk (h : Grows t t') {cs : List Path.Component} (hw : t.walk k cs = .ok k') :
    t'.walk k cs = .ok k' := by
  induction cs generalizing k with
  | nil => simpa [FileTree.walk] using hw
  | cons c cs ih =>
    obtain ⟨hd, hn, hw⟩ := walk_cons.1 hw
    exact walk_cons.2 ⟨h.directory k hd, fun s hs => (hn s hs).imp_right (h.isSome _), ih hw⟩

theorem resolve (h : Grows t t') {p : Path} (hr : t.resolve p = .ok k) :
    t'.resolve p = .ok k := by
  obtain ⟨hc, hl, hw⟩ := resolve_eq_ok.1 hr
  exact resolve_eq_ok.2 ⟨hc, hl, start_congr h.cwd p ▸ h.walk hw⟩

end Grows

theorem checkPath_eq_ok {u : Unit} (h : checkPath p = .ok u) : p.text ≠ "" := by
  intro he
  simp [checkPath, he] at h

theorem read_eq_ok {content : List UInt8} :
    t.read p = .ok content ↔ t.resolve p = .ok (t.keyOf p) ∧
      ∃ executable, t.node? (t.keyOf p) = some (.file content executable) := by
  simp only [read, bind_eq_ok]
  constructor
  · rintro ⟨k, hk, h⟩
    obtain rfl := resolve_eq hk
    refine ⟨hk, ?_⟩
    cases hn : t.node? (t.keyOf p) with
    | none => simp [hn] at h
    | some n => cases n <;> simp_all
  · rintro ⟨hr, executable, hn⟩
    exact ⟨_, hr, by simp [hn]⟩

variable {s : String}

theorem stepOf_eq_name {a : String} (h : stepOf a = .name s) : s = a := by
  unfold stepOf at h
  split at h <;> simp_all

@[simp] theorem stepOf_empty : stepOf "" = .here := rfl

theorem walk_here_cons (t : FileTree) (k : Key) (c : Path.Component) (cs : List Path.Component) :
    t.walk k (.here :: c :: cs) = t.walk k (c :: cs) := by
  rw [walk_step, walk_step]
  cases hn : t.node? k with
  | none => simp [step, hn, bind, Except.bind]
  | some n => cases n <;> simp [step, hn, walk_step, bind, Except.bind]

/-- Empty segments ask for a directory where one is needed anyway. -/
theorem walk_filter_here (t : FileTree) (k : Key) (ss : List String) :
    t.walk k ((ss.filter (· != "")).map stepOf ++ [.here]) =
      t.walk k (ss.map stepOf ++ [.here]) := by
  induction ss generalizing k with
  | nil => rfl
  | cons s ss ih =>
    by_cases hs : s = ""
    · subst hs
      rw [filter_cons_of_neg (by simp), ih, map_cons, stepOf_empty]
      cases ss.map stepOf <;> simp only [nil_append, cons_append, walk_here_cons]
    · rw [filter_cons_of_pos (by simpa using hs)]
      simp only [map_cons, cons_append, walk_step, ih]

theorem lookupLast_concat {last : String} (hp : p.segments = ss ++ [last]) (hlast : last ≠ "")
    (hc : checkPath p = .ok ()) (hl : checkLength p = .ok ()) :
    t.lookupLast p =
      (t.walk (t.start p) (ss.map stepOf ++ [.here])).map (·, some (stepOf last)) := by
  have hfilter : p.segments.filter (· != "") = ss.filter (· != "") ++ [last] := by simp [hp, hlast]
  simp only [lookupLast, hc, hl, hfilter, map_append, map_cons, map_nil,
    dropLast_concat, getLast?_concat, walk_filter_here]
  cases t.walk (t.start p) (ss.map stepOf ++ [.here]) <;> rfl

theorem keyOf_concat {dir : Key} (hp : p.segments = ss ++ [s])
    (hw : t.walk (t.start p) (ss.map stepOf) = .ok dir) : t.keyOf p = move dir (stepOf s) := by
  rw [keyOf, hp, map_append, foldl_append, ← walk_eq hw]
  rfl

theorem stepOf_of_length (h : 3 ≤ s.length) : stepOf s = .name s := by
  unfold stepOf
  split
  · exact absurd h (by decide)
  · exact absurd h (by decide)
  · exact absurd h (by decide)
  · rfl

theorem isFile_iff : t.isFile p = true ↔ ∃ content, t.read p = .ok content := by
  simp only [isFile, read_eq_ok]
  cases hr : t.resolve p with
  | error e => simp
  | ok k =>
    obtain rfl := resolve_eq hr
    cases hn : t.node? (t.keyOf p) with
    | none => simp [hn]
    | some n => cases n <;> simp [hn]

end FileTree

def Path.Named (p : Path) (s : String) : Prop :=
  ∃ ss, p.segments = ss ++ [s] ∧ FileTree.stepOf s = .name s

namespace Path.Named

variable {p : Path} {s : String}

theorem keyOf (h : p.Named s) (t : FileTree) : ∃ k, t.keyOf p = k ++ [s] := by
  obtain ⟨ss, hp, hs⟩ := h
  exact ⟨(ss.map FileTree.stepOf).foldl FileTree.move (t.start p), by
    simp [FileTree.keyOf, hp, hs, FileTree.move]⟩

theorem ne_empty (h : p.Named s) : s ≠ "" := by
  obtain ⟨-, -, hs⟩ := h
  rintro rfl
  simp [FileTree.stepOf] at hs

end Path.Named

theorem Path.named_joinName (p : Path) (stem : String) {ending : String}
    (h : '/' ∉ ending.toList) (hl : 3 ≤ ending.length) :
    ∃ s, (p.joinName (stem ++ ending)).Named (s ++ ending) := by
  have hend : ∀ text : String, ∃ s, Path.Named ⟨text ++ ending⟩ (s ++ ending) := by
    intro text
    obtain ⟨ss, last, -, hs⟩ := segments_append (s := text) h
    exact ⟨last, ss, hs, FileTree.stepOf_of_length (by simp; omega)⟩
  simp only [joinName, join]
  split
  · exact hend stem
  · split
    · simpa [String.append_assoc] using hend (p.text ++ stem)
    · simpa [String.append_assoc] using hend (p.text ++ "/" ++ stem)

theorem Path.isAbsolute_of_not_mem {s : String} (h : '/' ∉ s.toList) :
    Path.isAbsolute ⟨s⟩ = false := by
  rw [isAbsolute, beq_eq_false_iff_ne]
  exact fun hh => h (mem_of_mem_head? hh)

/-- A name that is joined to a path comes after the path's segments, or in place of the empty one
that they end in. -/
theorem Path.segments_joinName (p : Path) {s : String} (h : '/' ∉ s.toList) :
    ∃ ss, (p.joinName s).segments = ss ++ [s] ∧ (p.segments = ss ∨ p.segments = ss ++ [""]) := by
  have habs := isAbsolute_of_not_mem h
  have hempty : segments ⟨""⟩ = [""] := by decide
  obtain ⟨text⟩ := p
  simp only [joinName, join, habs, Bool.false_eq_true, false_or, String.isEmpty_iff]
  split
  · next he => exact ⟨[], segments_of_not_mem h, .inr (by simpa [he] using hempty)⟩
  split
  · next hslash =>
    simp only [endsInSlash, beq_iff_eq] at hslash
    obtain ⟨cs, hcs⟩ := getLast?_eq_some_iff.1 hslash
    have ht : text = String.ofList cs ++ "/" := by simp [← String.toList_inj, hcs]
    refine ⟨segments ⟨String.ofList cs⟩, ?_, .inr ?_⟩
    · rw [ht, segments_append_slash, segments_of_not_mem h]
    · rw [ht, ← hempty, ← segments_append_slash]
      simp
  · exact ⟨segments ⟨text⟩, by rw [segments_append_slash, segments_of_not_mem h], .inl rfl⟩

theorem FileTree.start_joinName (t : FileTree) (p : Path) {s : String} (h : '/' ∉ s.toList) :
    t.start (p.joinName s) = t.start p := by
  have habs := Path.isAbsolute_of_not_mem h
  obtain ⟨text⟩ := p
  simp only [Path.joinName, Path.join, habs, Bool.false_eq_true, false_or, String.isEmpty_iff]
  cases hc : text.toList with
  | nil =>
    have hrel : Path.isAbsolute ⟨""⟩ = false := rfl
    obtain rfl := String.toList_eq_nil_iff.1 hc
    simp [start, habs, hrel]
  | cons c cs =>
    have hne : text ≠ "" := by
      rintro rfl
      cases hc
    rw [if_neg hne]
    split <;> simp [start, Path.isAbsolute, hc]

/-- A name that is joined to a path is looked up where the path leads. -/
theorem FileTree.keyOf_joinName (t : FileTree) (p : Path) {s : String} (h : '/' ∉ s.toList)
    (hs : stepOf s = .name s) : t.keyOf (p.joinName s) = t.keyOf p ++ [s] := by
  obtain ⟨ss, hjoined, hp | hp⟩ := p.segments_joinName h
  · simp [keyOf, hjoined, hp, t.start_joinName p h, hs, move]
  · simp [keyOf, hjoined, hp, t.start_joinName p h, hs, move]

end ShaderDialect
