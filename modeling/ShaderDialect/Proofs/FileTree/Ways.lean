import ShaderDialect.Proofs.FileTree.Replacing

/-! The places that paths lead through, and what a tree that has grown makes of them. A directory
that is made needs places without files; where a file is in the way, making it fails, and fails in
the same manner when the tree has grown. -/
namespace ShaderDialect

open List Success

namespace FileTree
variable {c : Path.Component} {e : IoFault}

/-- The names that steps lead to one after the other, after those that they start from. -/
def trail (k : Key) : List Path.Component → List Key
  | [] => [k]
  | c :: cs => k :: trail (move k c) cs

section Trail
variable {k j : Key} {cs ds : List Path.Component}

theorem start_mem_trail (k : Key) (cs : List Path.Component) : k ∈ trail k cs := by
  cases cs <;> simp [trail]

theorem end_mem_trail (k : Key) (cs : List Path.Component) : cs.foldl move k ∈ trail k cs := by
  induction cs generalizing k with
  | nil => simp [trail]
  | cons c cs ih => exact mem_cons_of_mem _ (ih (move k c))

theorem trail_concat (k : Key) (cs : List Path.Component) (c : Path.Component) :
    trail k (cs ++ [c]) = trail k cs ++ [(cs ++ [c]).foldl move k] := by
  induction cs generalizing k with
  | nil => simp [trail]
  | cons d cs ih => simp [trail, ih]

theorem isPrefix_trail_append (k : Key) (cs ds : List Path.Component) :
    trail k cs <+: trail k (cs ++ ds) := by
  induction cs generalizing k with
  | nil => cases ds <;> simp [trail]
  | cons c cs ih => exact (prefix_cons_inj k).2 (ih (move k c))

theorem mem_trail_append_here (h : ∀ c ∈ ds, c = .here) :
    j ∈ trail k (cs ++ ds) ↔ j ∈ trail k cs := by
  induction ds using List.reverseRecOn with
  | nil => simp
  | append_singleton ds d ih =>
    simp only [mem_append, mem_singleton, or_imp, forall_and, forall_eq] at h
    obtain rfl := h.2
    rw [← append_assoc, trail_concat, mem_append, ih h.1, mem_singleton]
    have hend : (cs ++ ds ++ [Path.Component.here]).foldl move k = (cs ++ ds).foldl move k := by
      simp [move]
    constructor
    · rintro (hj | rfl)
      · exact hj
      · have hmem := end_mem_trail k (cs ++ ds)
        rw [← hend] at hmem
        exact (ih h.1).1 hmem
    · exact .inl

end Trail

/-- The places that a path leads through, from where it starts to where it ends. -/
def visited (t : FileTree) (p : Path) : List Key := trail (t.start p) (p.segments.map stepOf)

/-- The places that a path leads through before it ends. -/
def way (t : FileTree) (p : Path) : List Key := (t.visited p).dropLast

/-- There is no file at any of some places. -/
def Open (t : FileTree) (ks : List Key) : Prop :=
  ∀ k ∈ ks, ∀ content x, t.node? k ≠ some (.file content x)

/-- Behind a place where nothing is, nothing is. -/
def Straight (t : FileTree) (ks : List Key) : Prop :=
  ks.Pairwise fun j k => t.node? j = none → t.node? k = none

/-- Whatever has a place stands in a directory. -/
def Rooted (t : FileTree) : Prop :=
  ∀ k s, (t.node? (k ++ [s])).isSome → t.node? k = some .directory

/-- Directories stay directories and files stay files. -/
structure Keeps (t u : FileTree) : Prop where
  cwd : u.cwd = t.cwd
  directory : ∀ k, t.node? k = some .directory → u.node? k = some .directory
  file : ∀ k content x, t.node? k = some (.file content x) →
    ∃ content x, u.node? k = some (.file content x)

/-- Directories have been made at some places where nothing was. -/
structure Made (t u : FileTree) (ks : List Key) : Prop where
  cwd : u.cwd = t.cwd
  rooted : Rooted u
  node : ∀ k, u.node? k = t.node? k ∨
    k ∈ ks ∧ t.node? k = none ∧ u.node? k = some .directory

theorem way_congr {t t' : FileTree} (h : t'.cwd = t.cwd) (p : Path) : t'.way p = t.way p := by
  simp [way, visited, start, h]

section Walking
variable {t u : FileTree} {k k' : Key} {cs ds : List Path.Component}

theorem Keeps.grows (h : Keeps t u) : Grows t u := by
  refine ⟨h.cwd, h.directory, fun k hk => ?_⟩
  cases hn : t.node? k with
  | none => simp [hn] at hk
  | some n =>
    cases n with
    | directory => simp [h.directory k hn]
    | file content x =>
      obtain ⟨_, _, hu⟩ := h.file k content x hn
      simp [hu]

theorem Keeps.step_error (h : Keeps t u) (he : t.step k c = .error e) (hne : e ≠ .notFound) :
    u.step k c = .error e := by
  unfold step at he ⊢
  cases hn : t.node? k with
  | none =>
    rw [hn] at he
    exact absurd (Except.error.inj he).symm hne
  | some n =>
    rw [hn] at he
    cases n with
    | file content x =>
      obtain ⟨_, _, hu⟩ := h.file k content x hn
      rwa [hu]
    | directory =>
      rw [h.directory k hn]
      cases c with
      | name s =>
        rw [bind_eq_error] at he ⊢
        refine he.imp_right (.imp fun _ => .imp_right fun hs => ?_)
        split at hs
        · cases hs
        · exact absurd (Except.error.inj hs).symm hne
      | _ => cases he

/-- A walk that fails for another reason than that something is missing keeps failing. -/
theorem Keeps.walk_error (h : Keeps t u) (he : t.walk k cs = .error e) (hne : e ≠ .notFound) :
    u.walk k cs = .error e := by
  induction cs generalizing k with
  | nil => cases he
  | cons c cs ih =>
    rw [walk_cons_error] at he ⊢
    refine he.imp (h.step_error · hne) (.imp (fun hstep => ?_) ih)
    obtain ⟨hd, hs, -⟩ := step_eq_ok.1 hstep
    exact step_eq_ok.2 ⟨h.directory k hd, fun s hc => (hs s hc).imp_right (h.grows.isSome _), rfl⟩

theorem rooted_of_nodes (h : ∀ e ∈ t.nodes, t.node? e.1.dropLast = some .directory) : Rooted t := by
  intro k s hs
  rw [node?, if_neg (by simp)] at hs
  obtain ⟨n, hn⟩ := Option.isSome_iff_exists.1 hs
  obtain ⟨before, after, hnodes, -⟩ := lookup_eq_some_iff.1 hn
  simpa using h (k ++ [s], n) (by simp [hnodes])

theorem Rooted.dropLast (h : Rooted t) (hk : t.node? k = some .directory) :
    t.node? k.dropLast = some .directory := by
  cases hl : k using List.reverseRecOn with
  | nil => exact node?_nil t
  | append_singleton k s =>
    rw [dropLast_concat]
    exact h k s (by rw [← hl, hk]; rfl)

theorem Rooted.insert (h : Rooted t) {s : String} {n : Node} (hk : t.node? k = some .directory)
    (hfree : t.node? (k ++ [s]) = some .directory → n = .directory) :
    Rooted (t.insert (k ++ [s]) n) := by
  have hne : k ++ [s] ≠ [] := by simp
  intro j s' hsome
  by_cases hj : j = k ++ [s]
  · subst hj
    have hlonger : k ++ [s] ++ [s'] ≠ k ++ [s] := by simp
    rw [node?_insert_of_ne t hlonger] at hsome
    rw [node?_insert_self t hne, hfree (h _ s' hsome)]
  · rw [node?_insert_of_ne t hj]
    by_cases hjs : j ++ [s'] = k ++ [s]
    · obtain rfl := (append_inj' hjs rfl).1
      exact hk
    · rw [node?_insert_of_ne t hjs] at hsome
      exact h j s' hsome

namespace Made
variable {v : FileTree} {ks : List Key}

theorem refl (ht : Rooted t) (ks : List Key) : Made t t ks := ⟨rfl, ht, fun _ => .inl rfl⟩

theorem mono {ks' : List Key} (h : Made t u ks) (hks : ks ⊆ ks') : Made t u ks' :=
  ⟨h.cwd, h.rooted, fun k => (h.node k).imp id (And.imp_left (hks ·))⟩

theorem trans (h : Made t u ks) (h' : Made u v ks) : Made t v ks := by
  refine ⟨h'.cwd.trans h.cwd, h'.rooted, fun k => ?_⟩
  rcases h.node k with hk | ⟨hmem, hnone, hk⟩ <;> rcases h'.node k with hk' | ⟨hmem', hnone', hk'⟩
  · exact .inl (hk'.trans hk)
  · exact .inr ⟨hmem', hk ▸ hnone', hk'⟩
  · exact .inr ⟨hmem, hnone, hk'.trans hk⟩
  · cases hnone'.symm.trans hk

theorem keeps (h : Made t u ks) : Keeps t u := by
  refine ⟨h.cwd, fun k hk => ?_, fun k content x hk => ⟨content, x, ?_⟩⟩ <;>
    rcases h.node k with he | ⟨-, hnone, -⟩
  · exact he.trans hk
  · cases hnone.symm.trans hk
  · exact he.trans hk
  · cases hnone.symm.trans hk

theorem isOpen (h : Made t u ks) {js : List Key} (hopen : t.Open js) : u.Open js := by
  intro k hk content x hfile
  rcases h.node k with he | ⟨-, -, he⟩
  · exact hopen k hk content x (he ▸ hfile)
  · cases he.symm.trans hfile

end Made

theorem step_open (ht : Rooted t) (hk : t.node? k = some .directory)
    (hfree : ∀ content x, t.node? (move k c) ≠ some (.file content x)) :
    (t.step k c = .ok (move k c) ∧ t.node? (move k c) = some .directory) ∨
      t.step k c = .error .notFound ∨
      t.step k c = .error .nameTooLong ∧ ∃ s, .name s = c ∧ nameLimit < s.utf8ByteSize := by
  simp only [step, hk]
  cases c with
  | root => exact .inl ⟨rfl, node?_nil t⟩
  | here => exact .inl ⟨rfl, hk⟩
  | up => exact .inl ⟨rfl, ht.dropLast hk⟩
  | name s =>
    by_cases hlong : nameLimit < s.utf8ByteSize
    · exact .inr (.inr ⟨by simp [checkName, hlong, bind, Except.bind], s, rfl, hlong⟩)
    · simp only [checkName, hlong, if_false, bind, Except.bind, move] at hfree ⊢
      cases hn : t.node? (k ++ [s]) with
      | none => exact .inr (.inl rfl)
      | some n =>
        cases n with
        | file content x => exact absurd hn (hfree content x)
        | directory => exact .inl ⟨rfl, rfl⟩

theorem walk_open (ht : Rooted t) (hk : t.node? k = some .directory) (hopen : t.Open (trail k cs)) :
    (t.walk k cs = .ok (cs.foldl move k) ∧ t.node? (cs.foldl move k) = some .directory) ∨
      t.walk k cs = .error .notFound ∨
      t.walk k cs = .error .nameTooLong ∧ ∃ s, .name s ∈ cs ∧ nameLimit < s.utf8ByteSize := by
  induction cs generalizing k with
  | nil => exact .inl ⟨rfl, hk⟩
  | cons c cs ih =>
    have hopen' : t.Open (trail (move k c) cs) := fun j hj => hopen j (mem_cons_of_mem _ hj)
    rw [walk_step]
    rcases step_open ht hk (hopen' _ (start_mem_trail _ _)) with
      ⟨hstep, hd⟩ | hstep | ⟨hstep, s, rfl, hs⟩ <;> rw [hstep]
    · refine (ih hd hopen').imp_right (.imp_right (.imp_right ?_))
      rintro ⟨s, hs, hlong⟩
      exact ⟨s, mem_cons_of_mem _ hs, hlong⟩
    · exact .inr (.inl rfl)
    · exact .inr (.inr ⟨rfl, s, mem_cons_self, hs⟩)

theorem Straight.eq_none (h : t.Straight (trail k cs)) (hk : t.node? k = none) :
    ∀ j ∈ trail k cs, t.node? j = none := by
  intro j hj
  cases cs with
  | nil =>
    obtain rfl := mem_singleton.1 hj
    exact hk
  | cons c cs =>
    rcases mem_cons.1 hj with rfl | hj
    · exact hk
    · exact (pairwise_cons.1 h).1 j hj hk

theorem Straight.ne_none (h : t.Straight (trail k cs)) (hfile : ¬ t.Open (trail k cs)) :
    t.node? k ≠ none := by
  intro hk
  refine hfile fun j hj content x => ?_
  simp [h.eq_none hk j hj]

/-- If a file is in the way, nothing is missing before it. -/
theorem walk_of_straight (hstraight : t.Straight (trail k (cs ++ [c])))
    (hfile : ¬ t.Open (trail k (cs ++ [c]))) : t.walk k (cs ++ [.here]) ≠ .error .notFound := by
  intro h
  have hsome := hstraight.ne_none hfile
  induction cs generalizing k with
  | nil =>
    rcases walk_cons_error.1 h with h | ⟨-, h⟩
    · rcases step_notFound h with hk | ⟨hd, hk⟩
      · exact hsome hk
      · exact hsome hk
    · cases h
  | cons d cs ih =>
    have hstraight' : t.Straight (trail (move k d) (cs ++ [c])) := (pairwise_cons.1 hstraight).2
    have hsome' (hd : t.node? k = some .directory) : ¬ t.Open (trail (move k d) (cs ++ [c])) ∧
        t.node? (move k d) ≠ none := by
      have hfile' : ¬ t.Open (trail (move k d) (cs ++ [c])) := by
        intro hopen
        exact hfile (forall_mem_cons.2 ⟨by simp [hd], hopen⟩)
      exact ⟨hfile', hstraight'.ne_none hfile'⟩
    rcases walk_cons_error.1 h with h | ⟨hstep, h⟩
    · rcases step_notFound h with hk | ⟨hd, hk⟩
      · exact hsome hk
      · exact (hsome' hd).2 hk
    · obtain ⟨hfile', hne⟩ := hsome' (step_eq_ok.1 hstep).1
      exact ih hstraight' hfile' h hne

end Walking
end FileTree

namespace Path
variable (ss : List String)

def significant (ss : List String) : Nat :=
  (ss.zipIdx.filter fun e => isSignificant e.2 e.1).length

theorem significant_concat (s : String) :
    significant (ss ++ [s]) = significant ss + if isSignificant ss.length s then 1 else 0 := by
  by_cases hs : isSignificant ss.length s = true <;>
    simp [significant, zipIdx_append, filter_append, hs]

theorem significant_dropEmptyEnd : significant (dropEmptyEnd ss) = significant ss := by
  induction ss using List.reverseRecOn with
  | nil => rfl
  | append_singleton ss s ih =>
    rw [dropEmptyEnd_concat, significant_concat]
    split
    · next hs => rw [significant_concat, if_pos hs]
    · rw [ih, Nat.add_zero]

theorem component?_of_isSignificant {i : Nat} {s : String} (h : isSignificant (i + 1) s = true) :
    (component? s).isSome = true := by
  unfold component?
  split <;> simp_all [isSignificant]

theorem significant_le_components (p : Path) : significant p.segments ≤ p.components.length := by
  unfold components
  cases hs : p.segments with
  | nil => exact absurd hs p.segments_ne_nil
  | cons first rest =>
    dsimp only
    generalize hstart : (if p.isAbsolute then [.root] else
      if first = "." then [.here] else (component? first).toList) = start
    have hfirst : significant [first] ≤ start.length := by
      by_cases hsig : isSignificant 0 first = true
      · have hne : first ≠ "" := by
          rintro rfl
          cases hsig
        rw [← hstart]
        split
        · simp [significant, hsig]
        · split
          · simp [significant, hsig]
          · next hdot =>
            have hsome : (component? first).isSome = true := by
              unfold component?
              split <;> simp_all
            obtain ⟨c, hc⟩ := Option.isSome_iff_exists.1 hsome
            simp [significant, hsig, hc]
      · simp [significant, hsig]
    clear hs hstart
    induction rest using List.reverseRecOn with
    | nil => simpa using hfirst
    | append_singleton rest s ih =>
      rw [← cons_append, significant_concat, filterMap_append]
      split
      · next hsig =>
        obtain ⟨c, hc⟩ := Option.isSome_iff_exists.1 (component?_of_isSignificant hsig)
        simp only [length_append, filterMap_cons, hc, filterMap_nil,
          length_cons, length_nil] at ih ⊢
        omega
      · simp only [length_append] at ih ⊢
        omega

end Path

namespace FileTree
variable {e : IoFault}

section Making
variable {dir : Key} {t u : FileTree} {p : Path} {k : Key} {init : List String} {last : String}
  {cs : List Path.Component} {k' : Key} {q : Path} {fuel : Nat}

theorem makeDirectory_concat (hp : p.segments = init ++ [last]) (hlast : last ≠ "")
    (hc : checkPath p = .ok ()) (hl : checkLength p = .ok ()) :
    t.makeDirectory p = t.walk (t.start p) (init.map stepOf ++ [.here]) >>= fun dir =>
      match stepOf last with
      | .name s => checkName s >>= fun _ =>
        if (t.node? (dir ++ [s])).isSome then .error .alreadyExists
        else .ok (t.insert (dir ++ [s]) .directory)
      | _ => .error .alreadyExists := by
  simp only [makeDirectory, lookupLast_concat hp hlast hc hl]
  cases t.walk (t.start p) (init.map stepOf ++ [.here]) with
  | error e => rfl
  | ok dir =>
    cases stepOf last with
    | name s =>
      simp only [Except.map, bind, Except.bind]
      cases checkName s with
      | error e => rfl
      | ok _ => split <;> rfl
    | _ => rfl

def Short (p : Path) : Prop :=
  ∀ s, .name s ∈ p.segments.map stepOf → s.utf8ByteSize ≤ nameLimit

theorem short_of_walk (h : t.walk k cs = .ok k') :
    ∀ s, .name s ∈ cs → s.utf8ByteSize ≤ nameLimit := by
  induction cs generalizing k with
  | nil => simp
  | cons c cs ih =>
    obtain ⟨-, hname, hrest⟩ := walk_cons.1 h
    intro s hs
    rcases mem_cons.1 hs with rfl | hs
    · exact (hname s rfl).1
    · exact ih hrest s hs

variable (hp : p.segments = init ++ [last]) (hc : checkPath p = .ok ())
  (hl : checkLength p = .ok ())
include hp hc hl

omit hc hl in
theorem short_concat : Short p ↔ (∀ s, .name s ∈ init.map stepOf → s.utf8ByteSize ≤ nameLimit) ∧
    ∀ s, stepOf last = .name s → s.utf8ByteSize ≤ nameLimit := by
  simp only [Short, hp, map_append, map_singleton, mem_append, mem_singleton,
    or_imp, forall_and]
  exact and_congr_right fun _ => forall_congr' fun s => by rw [eq_comm]

omit hp hc hl in
theorem short_of_isDirectory (h : t.isDirectory p = true) : Short p :=
  short_of_walk (resolve_eq_ok.1 (isDirectory_iff.1 h).1).2.2

theorem makeDirectory_of_walk (hlast : last ≠ "") (ht : Rooted t) (hopen : t.Open (t.visited p))
    (hw : t.walk (t.start p) (init.map stepOf) = .ok dir) (hd : t.node? dir = some .directory) :
    ¬ Short p ∧ t.makeDirectory p = .error .nameTooLong ∨
      (∃ t', t.makeDirectory p = .ok t' ∧ Made t t' (t.visited p) ∧ t'.isDirectory p = true) ∨
      t.makeDirectory p = .error .alreadyExists ∧ t.isDirectory p = true := by
  have hkey := keyOf_concat hp hw
  have hmake := makeDirectory_concat (t := t) hp hlast hc hl
  rw [walk_concat_here.2 ⟨hw, hd⟩] at hmake
  have harrives : ∀ u : FileTree, u.cwd = t.cwd → u.walk (t.start p) (init.map stepOf) = .ok dir →
      u.node? dir = some .directory → u.node? (t.keyOf p) = some .directory →
      (∀ s, stepOf last = .name s → s.utf8ByteSize ≤ nameLimit) → u.isDirectory p = true := by
    intro u hcwd hw hd hk hshort
    rw [isDirectory_iff_walk hc hl, keyOf_congr hcwd, hp, map_append]
    have hstart := start_congr hcwd p
    refine ⟨walk_append.2 ⟨dir, hstart ▸ hw, walk_cons.2 ⟨hd, fun s hs => ⟨hshort s hs, ?_⟩, ?_⟩⟩,
      hk⟩
    · rw [hkey, hs] at hk
      simp [move] at hk
      simp [hk]
    · simp [walk, hkey]
  cases hstep : stepOf last with
  | name s =>
    rw [hstep] at hkey
    by_cases hlong : nameLimit < s.utf8ByteSize
    · refine .inl
        ⟨fun hshort => ?_, by simpa [hstep, checkName, hlong, bind, Except.bind] using hmake⟩
      have := ((short_concat hp).1 hshort).2 s hstep
      omega
    · have hshort : ∀ s', Path.Component.name s = .name s' → s'.utf8ByteSize ≤ nameLimit := by
        rintro _ ⟨⟩
        omega
      simp only [hstep, checkName, hlong, if_false, bind, Except.bind] at hmake
      cases hn : t.node? (dir ++ [s]) with
      | none =>
        have hkey' : dir ++ [s] = t.keyOf p := hkey.symm
        have hself : (t.insert (dir ++ [s]) .directory).node? (dir ++ [s]) = some .directory :=
          node?_insert_self t (by simp) _
        have hmade : Made t (t.insert (dir ++ [s]) .directory) (t.visited p) := by
          refine ⟨rfl, ht.insert hd fun _ => rfl, fun k => ?_⟩
          by_cases hk : k = dir ++ [s]
          · subst hk
            exact .inr ⟨hkey' ▸ end_mem_trail _ _, hn, hself⟩
          · exact .inl (node?_insert_of_ne t hk _)
        refine .inr (.inl ⟨_, by simpa [hn] using hmake, hmade, ?_⟩)
        exact harrives _ rfl (hmade.keeps.grows.walk hw) (hmade.keeps.directory dir hd)
          (hkey' ▸ hself) (hstep ▸ hshort)
      | some n =>
        have hdir : t.node? (t.keyOf p) = some .directory := by
          cases n with
          | directory => rw [hkey]; exact hn
          | file content x =>
            have hfree : t.node? (t.keyOf p) ≠ _ := hopen _ (end_mem_trail _ _) content x
            exact absurd (by rw [hkey]; exact hn) hfree
        exact .inr (.inr ⟨by simpa [hn] using hmake, harrives t rfl hw hd hdir (hstep ▸ hshort)⟩)
  | root | here | up =>
    have hshort : ∀ s, stepOf last = .name s → s.utf8ByteSize ≤ nameLimit := by simp [hstep]
    have hthere : t.node? (t.keyOf p) = some .directory := by
      rw [hkey, hstep]
      simp [move, node?_nil, hd, ht.dropLast hd]
    exact .inr (.inr ⟨by simpa [hstep, bind, Except.bind] using hmake,
      harrives t rfl hw hd hthere hshort⟩)

omit hc hl in
theorem visited_concat (t : FileTree) : t.visited p = t.way p ++ [t.keyOf p] := by
  rw [way, visited, keyOf, hp, map_append, map_singleton, trail_concat,
    dropLast_concat]

omit hc hl in
theorem way_eq (t : FileTree) : t.way p = trail (t.start p) (init.map stepOf) := by
  rw [way, visited, hp, map_append, map_singleton, trail_concat, dropLast_concat]

def makeLast (t : FileTree) (p : Path) : Except IoFault FileTree :=
  match t.makeDirectory p with
  | .ok t => .ok t
  | .error e => if t.isDirectory p then .ok t else .error e

omit hp hc hl in
theorem makeLast_of_error {e : IoFault} (h : t.makeDirectory p = .error e)
    (hdir : ¬ t.isDirectory p = true) : t.makeLast p = .error e := by
  simp [makeLast, h, hdir]

theorem makeLast_of_walk (hlast : last ≠ "") (ht : Rooted t) (hopen : t.Open (t.visited p))
    (hw : t.walk (t.start p) (init.map stepOf) = .ok dir) (hd : t.node? dir = some .directory) :
    Short p ∧ (∃ t', t.makeLast p = .ok t' ∧ Made t t' (t.visited p) ∧ t'.isDirectory p = true) ∨
      ¬ Short p ∧ t.makeLast p = .error .nameTooLong := by
  rcases makeDirectory_of_walk hp hc hl hlast ht hopen hw hd with
    ⟨hlong, hmake⟩ | ⟨t', hmake, hmade, hdir⟩ | ⟨hmake, hdir⟩
  · exact .inr ⟨hlong, makeLast_of_error hmake (mt short_of_isDirectory hlong)⟩
  · have hshort := short_of_isDirectory hdir
    exact .inl ⟨hshort, t', by simp [makeLast, hmake], hmade, hdir⟩
  · exact .inl ⟨short_of_isDirectory hdir, t, by simp [makeLast, hmake, hdir], .refl ht _, hdir⟩

omit hp hc hl in
theorem makeDirectoriesFrom_of_ne (htext : p.text ≠ "") (h : t.makeDirectory p ≠ .error .notFound) :
    makeDirectoriesFrom fuel t p = t.makeLast p := by
  have hne : p.text.isEmpty = false := by simpa using htext
  rw [makeDirectoriesFrom.eq_def, makeLast]
  simp only [hne, Bool.false_eq_true, if_false]
  split <;> simp_all

omit hp hl in
theorem makeDirectoriesFrom_of_notFound (h : t.makeDirectory p = .error .notFound)
    (hq : p.parent? = some q) :
    makeDirectoriesFrom (fuel + 1) t p = makeDirectoriesFrom fuel t q >>= fun t =>
      t.makeLast p := by
  have hne : p.text.isEmpty = false := by simpa using checkPath_eq_ok hc
  rw [makeDirectoriesFrom.eq_def]
  simp only [hne, Bool.false_eq_true, if_false, h, hq]
  rfl

omit hc hl in
theorem parent?_of_notFound (hlast : Path.isSignificant init.length last = true)
    (hstart : t.node? (t.start p) = some .directory)
    (hmissing : t.walk (t.start p) (init.map stepOf) = .error .notFound) :
    ∃ q, p.parent? = some q ∧ q.Stem p init ∧
      Path.significant p.segments = Path.significant q.segments + 1 := by
  have hne : Path.dropEmptyEnd init ≠ [] := by
    intro hnil
    obtain ⟨tail, htail, hhere⟩ := Path.dropEmptyEnd_append init
    rw [hnil, nil_append] at htail
    rw [walk_of_here hstart (by simpa [htail] using hhere)] at hmissing
    cases hmissing
  obtain ⟨hstem, hsegments⟩ := Path.stem_intercalate hp hne
  refine ⟨_, (Path.parent?_concat hp hlast).trans (by rw [if_neg hne]), hstem, ?_⟩
  rw [hsegments, Path.significant_dropEmptyEnd, hp, Path.significant_concat, if_pos hlast]

theorem makeDirectoriesFrom_open (hlast : Path.isSignificant init.length last = true)
    (hfuel : Path.significant p.segments ≤ fuel) (ht : Rooted t)
    (hstart : t.node? (t.start p) = some .directory) (hopen : t.Open (t.visited p)) :
    Short p ∧ (∃ t', makeDirectoriesFrom fuel t p = .ok t' ∧ Made t t' (t.visited p) ∧
        t'.isDirectory p = true) ∨
      ¬ Short p ∧ makeDirectoriesFrom fuel t p = .error .nameTooLong := by
  induction fuel generalizing p init last with
  | zero =>
    rw [hp, Path.significant_concat, if_pos hlast] at hfuel
    omega
  | succ fuel ih =>
  have hempty : last ≠ "" := by
    rintro rfl
    cases hlast
  have hway : trail (t.start p) (init.map stepOf) ⊆ t.visited p := by
    rw [visited_concat hp, way_eq hp]
    exact subset_append_left _ _
  have hmake := makeDirectory_concat (t := t) hp hempty hc hl
  rw [walk_append_eq] at hmake
  rcases walk_open ht hstart fun j hj => hopen j (hway hj) with
    ⟨hw, hd⟩ | hmissing | ⟨hlong, s, hs, hs'⟩
  · have hfound : t.makeDirectory p ≠ .error .notFound := by
      rcases makeDirectory_of_walk hp hc hl hempty ht hopen hw hd with
        ⟨-, h⟩ | ⟨t', h, -⟩ | ⟨h, -⟩ <;> simp [h]
    rw [makeDirectoriesFrom_of_ne (checkPath_eq_ok hc) hfound]
    exact makeLast_of_walk hp hc hl hempty ht hopen hw hd
  · -- The directory that it stands in is made first; no name of it is new.
    obtain ⟨q, hq, ⟨⟨init', last', hsegments, hsig⟩, ⟨tail, hinit, hhere⟩, hne, more, htext⟩,
      hcount⟩ :=
      parent?_of_notFound hp hlast hstart hmissing
    obtain ⟨hcq, hlq⟩ := checks_of_append hne htext hc hl
    have hsq := start_of_append hne htext t
    have hvisited : t.visited q ⊆ t.visited p := by
      intro j hj
      refine hway ?_
      rw [hinit, map_append, ← hsq]
      exact (isPrefix_trail_append _ _ _).subset hj
    have hfuel' : Path.significant q.segments ≤ fuel := by omega
    rw [makeDirectoriesFrom_of_notFound hc (by rw [hmake, hmissing]; rfl) hq]
    rcases ih hsegments hcq hlq hsig hfuel' (hsq ▸ hstart) fun j hj => hopen j (hvisited hj) with
      ⟨-, t₁, hok, hmade, hdir⟩ | ⟨hlong, herror⟩
    · rw [hok]
      obtain ⟨hw, hd⟩ := (isDirectory_iff_walk hcq hlq).1 hdir
      have hcwd := start_congr hmade.cwd p
      have hvisited' : t₁.visited p = t.visited p := by rw [visited, hcwd, visited]
      have hw' : t₁.walk (t₁.start p) (init.map stepOf) = .ok (t₁.keyOf q) := by
        rw [hinit, map_append, walk_append]
        refine ⟨_, ?_, walk_of_here hd hhere⟩
        rw [hcwd, ← hsq]
        simpa [start, hmade.cwd] using hw
      have hlast := makeLast_of_walk hp hc hl hempty hmade.rooted
        (hvisited' ▸ hmade.isOpen hopen) hw' hd
      rw [hvisited'] at hlast
      rcases hlast with ⟨hshort, t', hok', hmade', hdir'⟩ | hlong
      · exact .inl ⟨hshort, t', hok', (hmade.mono hvisited).trans hmade', hdir'⟩
      · exact .inr hlong
    · refine .inr ⟨fun hshort => hlong fun s hs => ?_, by rw [herror]; rfl⟩
      refine ((short_concat hp).1 hshort).1 s ?_
      rw [hinit, map_append]
      exact mem_append_left _ hs
  · have hlong : t.makeDirectory p = .error .nameTooLong := by
      rw [hmake, hlong]
      rfl
    have hnot : ¬ Short p := by
      intro h
      have := ((short_concat hp).1 h).1 s hs
      omega
    rw [makeDirectoriesFrom_of_ne (checkPath_eq_ok hc) (by simp [hlong])]
    exact .inr ⟨hnot, makeLast_of_error hlong (mt short_of_isDirectory hnot)⟩

omit hp hc hl in
theorem directory_of_walk (h : t.walk k (cs ++ [.here]) = .ok k') :
    ∀ j ∈ trail k cs, t.node? j = some .directory := by
  induction cs generalizing k with
  | nil =>
    intro j hj
    obtain rfl := mem_singleton.1 hj
    exact (walk_cons.1 h).1
  | cons c cs ih =>
    obtain ⟨hd, -, hrest⟩ := walk_cons.1 h
    intro j hj
    rcases mem_cons.1 hj with rfl | hj
    · exact hd
    · exact ih hrest j hj

omit hp hc hl in
theorem open_of_isDirectory (h : t.isDirectory p = true) : t.Open (t.visited p) := by
  obtain ⟨hr, hd⟩ := isDirectory_iff.1 h
  obtain ⟨-, -, hw⟩ := resolve_eq_ok.1 hr
  intro j hj content x
  simp [directory_of_walk (walk_concat_here.2 ⟨hw, hd⟩) j hj]

omit hp hc hl in
theorem Keeps.not_open (h : Keeps t u) {ks : List Key} (hblocked : ¬ t.Open ks) : ¬ u.Open ks := by
  intro hopen
  refine hblocked fun k hk content x hfile => ?_
  obtain ⟨content', x', hfile'⟩ := h.file k content x hfile
  exact hopen k hk content' x' hfile'

/-- Where a file is in the way, a directory cannot be made, and not for want of another one. -/
theorem makeDirectory_blocked (hlast : last ≠ "") (hstraight : t.Straight (t.visited p))
    (hblocked : ¬ t.Open (t.visited p)) :
    ∃ e, t.makeDirectory p = .error e ∧ e ≠ .notFound := by
  have hmake := makeDirectory_concat (t := t) hp hlast hc hl
  have hvisited : t.visited p = trail (t.start p) (init.map stepOf ++ [stepOf last]) := by
    rw [visited, hp, map_append, map_singleton]
  have hfound := walk_of_straight (hvisited ▸ hstraight) (hvisited ▸ hblocked)
  cases hw : t.walk (t.start p) (init.map stepOf ++ [.here]) with
  | error e =>
    rw [hw] at hmake hfound
    exact ⟨e, hmake, fun he => hfound (by rw [he])⟩
  | ok dir =>
    rw [hw] at hmake
    simp only [bind, Except.bind] at hmake
    cases hstep : stepOf last with
    | name s =>
      simp only [hstep, checkName] at hmake
      by_cases hlong : nameLimit < s.utf8ByteSize
      · exact ⟨.nameTooLong, by simpa [hlong] using hmake, by simp⟩
      cases hn : t.node? (dir ++ [s]) with
      | some n => exact ⟨.alreadyExists, by simpa [hlong, hn] using hmake, by simp⟩
      | none =>
        -- All that the path leads through is a directory, and nothing is where it ends.
        refine absurd (fun j hj content x => ?_) hblocked
        rw [hvisited, trail_concat, mem_append, mem_singleton] at hj
        rcases hj with hj | rfl
        · simp [directory_of_walk hw j hj]
        · have hdir := walk_eq (walk_concat_here.1 hw).1
          rw [foldl_append, ← hdir, hstep]
          simp [move, hn]
    | root | here | up => exact ⟨.alreadyExists, by simpa [hstep] using hmake, by simp⟩

/-- What keeps a directory from being made keeps it from being made. -/
theorem Keeps.makeDirectory_error (h : Keeps t u) (hlast : last ≠ "")
    (he : t.makeDirectory p = .error e) (hne : e ≠ .notFound) : u.makeDirectory p = .error e := by
  rw [makeDirectory_concat hp hlast hc hl] at he ⊢
  rw [start_congr h.cwd]
  cases hw : t.walk (t.start p) (init.map stepOf ++ [.here]) with
  | error e' =>
    rw [hw] at he
    obtain rfl : e' = e := Except.error.inj he
    rw [h.walk_error hw hne]
    rfl
  | ok dir =>
    rw [hw] at he
    rw [h.grows.walk hw]
    simp only [bind, Except.bind] at he ⊢
    cases hstep : stepOf last with
    | name s =>
      simp only [hstep] at he ⊢
      cases hs : checkName s with
      | error e' => simpa [hs] using he
      | ok _ =>
        by_cases hn : (t.node? (dir ++ [s])).isSome
        · simpa [hs, hn, h.grows.isSome _ hn] using he
        · simp [hs, hn] at he
    | root | here | up => simpa [hstep] using he

/-- Where a file is in the way, directories are refused, and they are refused in the same manner
when the tree has grown. -/
theorem makeDirectories_blocked (hlast : last ≠ "") (hstraight : t.Straight (t.visited p))
    (hblocked : ¬ t.Open (t.visited p)) :
    ∃ e, ∀ u, Keeps t u → u.makeDirectories p = .error e := by
  obtain ⟨e, he, hne⟩ := makeDirectory_blocked hp hc hl hlast hstraight hblocked
  refine ⟨e, fun u hu => ?_⟩
  have he' := hu.makeDirectory_error hp hc hl hlast he hne
  have hvisited : u.visited p = t.visited p := by simp [visited, start, hu.cwd]
  rw [makeDirectories, makeDirectoriesFrom_of_ne (checkPath_eq_ok hc) (by simp [he', hne])]
  refine makeLast_of_error he' fun hdir => ?_
  exact hu.not_open hblocked (hvisited ▸ open_of_isDirectory hdir)

end Making

section Joining
variable {p : Path} {s : String} {j : Key} (t : FileTree)

/-- A name that is joined to a path is reached through the places that the path leads through. -/
theorem way_joinName (p : Path) (h : '/' ∉ s.toList) : t.way (p.joinName s) <+: t.visited p := by
  obtain ⟨ss, hjoined, hp⟩ := p.segments_joinName h
  rw [way_eq hjoined, visited, t.start_joinName p h]
  rcases hp with hp | hp
  · simp only [hp, prefix_rfl]
  · simp only [hp, map_append]
    exact isPrefix_trail_append _ _ _

theorem mem_way_joinName (p : Path) (h : '/' ∉ s.toList) :
    j ∈ t.way (p.joinName s) ↔ j ∈ t.visited p := by
  obtain ⟨ss, hjoined, hp⟩ := p.segments_joinName h
  rw [way_eq hjoined, visited, t.start_joinName p h]
  rcases hp with hp | hp <;> rw [hp]
  · rw [map_append, mem_trail_append_here (by simp)]

theorem visited_joinName (p : Path) (h : '/' ∉ s.toList) :
    t.visited (p.joinName s) = t.way (p.joinName s) ++ [t.keyOf (p.joinName s)] := by
  obtain ⟨ss, hjoined, -⟩ := p.segments_joinName h
  exact visited_concat hjoined t

theorem mem_visited_joinName (p : Path) (h : '/' ∉ s.toList) :
    j ∈ t.visited (p.joinName s) ↔ j ∈ t.visited p ∨ j = t.keyOf (p.joinName s) := by
  rw [visited_joinName t p h, mem_append, mem_way_joinName t p h, mem_singleton]

end Joining
end FileTree
end ShaderDialect
