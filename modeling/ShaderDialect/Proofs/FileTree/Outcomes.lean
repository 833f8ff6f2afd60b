import Mathlib.Data.Set.Basic
import ShaderDialect.Proofs.FileTree.Ways

/-! What comes of putting a file in its place. Where no file is in the way, the path alone and what
is at its end decide; where one is, the file is refused. So other files that have been put into the
tree change nothing, as long as they are on no way. -/
namespace ShaderDialect

open List Success

namespace FileTree
variable {q : Path} {ks : List Key}

/-- A file is put at a key, and the directories that are made for it are among some places. -/
structure PutsOn (t : FileTree) (ks : List Key) (k : Key) (content : List UInt8) (t' : FileTree) :
    Prop extends Puts t k content t' where
  rooted : Rooted t'
  made : ∀ j, j ≠ k → t'.node? j ≠ t.node? j → j ∈ ks

section Placing
variable {t u : FileTree} {p : Path} {ss : List String} {s : String}

theorem makeDirectories_of_checks (hq : q.text ≠ "") {e : IoFault}
    (h : (do checkPath q; checkLength q) = .error e) (t : FileTree) :
    t.makeDirectories q = .error e := by
  have hne : e ≠ .notFound := by
    rintro rfl
    simp only [checkPath, checkLength, hq, String.isEmpty_iff, if_false] at h
    split at h
    · cases h
    · simp only [bind, Except.bind] at h
      split at h <;> cases h
  have hmake : t.makeDirectory q = .error e := by
    simp only [makeDirectory, lookupLast]
    cases hc : checkPath q with
    | error e' => simpa [hc, bind, Except.bind] using h
    | ok _ =>
      cases hl : checkLength q with
      | error e' => simpa [hc, hl, bind, Except.bind] using h
      | ok _ => simp [hc, hl, bind, Except.bind] at h
  rw [makeDirectories, makeDirectoriesFrom_of_ne hq (by simp [hmake, hne])]
  refine makeLast_of_error hmake fun hdir => ?_
  obtain ⟨hc, hl, -⟩ := resolve_eq_ok.1 (isDirectory_iff.1 hdir).1
  simp [hc, hl, bind, Except.bind] at h

/-- A path and the way that goes on from it lead through the same places. -/
theorem mem_visited_of_stem (h : q.Stem p ss) (hp : p.segments = ss ++ [s]) (t : FileTree)
    (j : Key) : j ∈ t.visited q ↔ j ∈ t.way p := by
  obtain ⟨tail, htail, hhere⟩ := h.rest
  obtain ⟨more, htext⟩ := h.text
  rw [visited, start_of_append h.ne_empty htext, way_eq hp, htail, map_append,
    mem_trail_append_here hhere]

/-- The directory of a named path has been made: the way there can be walked. -/
structure Ready (t : FileTree) (p : Path) (ss : List String) (t' : FileTree) : Prop
    extends Made t t' (t.way p) where
  walk : t'.walk (t.start p) (ss.map stepOf) = .ok ((ss.map stepOf).foldl move (t.start p))
  directory : t'.node? ((ss.map stepOf).foldl move (t.start p)) = some .directory

theorem Ready.of_walk {dir : Key} (hmade : Made t u (t.way p))
    (hw : u.walk (t.start p) (ss.map stepOf) = .ok dir) (hd : u.node? dir = some .directory) :
    Ready t p ss u := by
  obtain rfl := walk_eq hw
  exact ⟨hmade, hw, hd⟩

/-- Where no file is in the way, the path alone decides whether its directory is made. -/
theorem directory_verdict (hp : p.segments = ss ++ [s]) (hs : stepOf s = .name s) :
    ∃ v : Option IoFault,
      (checkPath p = .ok () → checkLength p = .ok () → Short p → v = none) ∧
      ∀ t : FileTree, Rooted t → t.node? (t.start p) = some .directory → t.Open (t.way p) →
        (∀ e, v = some e → t.makeDirectories p.directory = .error e) ∧
        (v = none → ∃ t', t.makeDirectories p.directory = .ok t' ∧ Ready t p ss t') := by
  rcases directory_cases hp hs with ⟨hhere, hdir⟩ | hstem
  · refine ⟨none, fun _ _ _ => rfl, fun t ht hstart _ => ⟨by simp, fun _ => ⟨t, ?_, ?_⟩⟩⟩
    · rw [hdir]
      exact makeDirectories_of_isDirectory (isDirectory_start hstart)
    · have hwalk := walk_of_here hstart hhere
      exact .of_walk (.refl ht _) hwalk hstart
  · have hways := mem_visited_of_stem hstem hp
    obtain ⟨⟨init, last, hsegments, hsig⟩, ⟨tail, htail, hhere⟩, hne, more, htext⟩ := hstem
    generalize p.directory = q at *
    cases hchecks : (do checkPath q; checkLength q) with
    | error e =>
      refine ⟨some e, fun hc hl _ => ?_, fun t _ _ _ => ⟨?_, by simp⟩⟩
      · obtain ⟨hcq, hlq⟩ := checks_of_append hne htext hc hl
        simp [hcq, hlq, bind, Except.bind] at hchecks
      · rintro _ ⟨⟩
        exact makeDirectories_of_checks hne hchecks t
    | ok _ =>
      simp only [bind_eq_ok] at hchecks
      obtain ⟨_, hcq, hlq⟩ := hchecks
      have hopened (t : FileTree) (ht : Rooted t) (hstart : t.node? (t.start p) = some .directory)
          (hopen : t.Open (t.way p)) := by
        refine makeDirectoriesFrom_open (t := t) hsegments hcq hlq hsig
          (Path.significant_le_components q) ht ?_ fun j hj => hopen j ((hways t j).1 hj)
        rw [start_of_append hne htext]
        exact hstart
      by_cases hshort : Short q
      · refine ⟨none, fun _ _ _ => rfl, fun t ht hstart hopen => ⟨by simp, fun _ => ?_⟩⟩
        obtain ⟨t', hok, hmade, hdir⟩ := (hopened t ht hstart hopen).resolve_right
          (fun h => h.1 hshort) |>.2
        refine ⟨t', hok, ?_⟩
        obtain ⟨hw, hd⟩ := (isDirectory_iff_walk hcq hlq).1 hdir
        have hstart' : t'.start q = t.start p := by
          rw [start_of_append hne htext, start, hmade.cwd, start]
        have hwalk : t'.walk (t.start p) (ss.map stepOf) = .ok (t'.keyOf q) := by
          rw [htail, map_append, walk_append]
          exact ⟨_, hstart' ▸ hw, walk_of_here hd hhere⟩
        exact .of_walk (hmade.mono fun j hj => (hways t j).1 hj) hwalk hd
      · refine ⟨some .nameTooLong, fun _ _ hp' => absurd ?_ hshort,
          fun t ht hstart hopen => ⟨?_, by simp⟩⟩
        · intro s' hs'
          refine ((short_concat hp).1 hp').1 s' ?_
          rw [htail, map_append]
          exact mem_append_left _ hs'
        · rintro _ ⟨⟩
          exact ((hopened t ht hstart hopen).resolve_left fun h => hshort h.1).2

/-- Where a file is in the way, a directory is refused, also when the tree has grown. -/
theorem directory_blocked (hp : p.segments = ss ++ [s]) (hs : stepOf s = .name s)
    (hstart : t.node? (t.start p) = some .directory) (hstraight : t.Straight (t.way p))
    (hblocked : ¬ t.Open (t.way p)) :
    ∃ e, ∀ u, Keeps t u → u.makeDirectories p.directory = .error e := by
  rcases directory_cases hp hs with ⟨hhere, hdir⟩ | hstem
  · refine absurd (fun j hj content x => ?_) hblocked
    rw [way_eq hp, ← nil_append (ss.map stepOf), mem_trail_append_here hhere] at hj
    obtain rfl := mem_singleton.1 hj
    simp [hstart]
  · have hblocked' : ¬ t.Open (t.visited p.directory) := by
      intro hopen
      exact hblocked fun j hj => hopen j ((mem_visited_of_stem hstem hp t j).2 hj)
    obtain ⟨⟨init, last, hsegments, hsig⟩, ⟨tail, htail, hhere⟩, hne, more, htext⟩ := hstem
    generalize p.directory = q at *
    have hlast : last ≠ "" := by
      rintro rfl
      cases hsig
    cases hchecks : (do checkPath q; checkLength q) with
    | error e => exact ⟨e, fun u _ => makeDirectories_of_checks hne hchecks u⟩
    | ok _ =>
      simp only [bind_eq_ok] at hchecks
      obtain ⟨_, hcq, hlq⟩ := hchecks
      refine makeDirectories_blocked hsegments hcq hlq hlast (hstraight.sublist ?_) hblocked'
      rw [visited, start_of_append hne htext, way_eq hp, htail, map_append]
      exact (isPrefix_trail_append _ _ _).sublist

theorem Ready.putsOn (h : Ready t p ss u) (hp : p.segments = ss ++ [s]) (hs : stepOf s = .name s)
    (hkey : t.keyOf p ∉ t.way p) (hfree : t.node? (t.keyOf p) ≠ some .directory)
    (content : List UInt8) :
    PutsOn t (t.way p) (t.keyOf p) content (u.insert (t.keyOf p) (.file content false)) := by
  have hend : t.keyOf p = (ss.map stepOf).foldl move (t.start p) ++ [s] := by
    rw [keyOf, hp, map_append, foldl_append]
    simp [hs, move]
  have hne : t.keyOf p ≠ [] := by simp [hend]
  have hfree' : u.node? (t.keyOf p) ≠ some .directory := by
    rcases h.node (t.keyOf p) with he | ⟨hmem, -⟩
    · rwa [he]
    · exact absurd hmem hkey
  refine ⟨⟨h.cwd, node?_insert_self u hne _, hfree, fun j hj => ?_⟩, ?_, fun j hj hnode => ?_⟩
  · rw [node?_insert_of_ne u hj]
    exact (h.node j).imp id And.right
  · rw [hend] at hfree' ⊢
    exact h.rooted.insert h.directory fun hdir => absurd hdir hfree'
  · rw [node?_insert_of_ne u hj] at hnode
    exact ((h.node j).resolve_left hnode).1

/-- Once its directory is there, a path's own checks and what is at its end decide. -/
theorem Ready.place (h : Ready t p ss u) (hp : p.Named s) (hsegments : p.segments = ss ++ [s])
    (hok : t.makeDirectories p.directory = .ok u) (hkey : t.keyOf p ∉ t.way p)
    (content : List UInt8) :
    t.place p content = match (do checkPath p; checkLength p; checkName s) with
      | .error e => .error (.pathIo p e)
      | .ok () =>
        if t.node? (t.keyOf p) = some .directory then .error (.pathIo p .isADirectory)
        else .ok (u.insert (t.keyOf p) (.file content false)) := by
  have hstart := start_congr h.cwd p
  have hnode : u.node? (t.keyOf p) = t.node? (t.keyOf p) :=
    (h.node _).resolve_right fun hmade => hkey hmade.1
  have hwrite := write_of_walk (t := u) hp hsegments (hstart ▸ h.walk) h.directory content
  rw [keyOf_congr h.cwd, hnode] at hwrite
  rw [place_eq, hok]
  dsimp only
  rw [hwrite]
  cases checkPath p with
  | error e => rfl
  | ok _ =>
    cases checkLength p with
    | error e => rfl
    | ok _ =>
      cases checkName s with
      | error e => rfl
      | ok _ =>
        by_cases hdir : t.node? (t.keyOf p) = some .directory <;> simp [hdir, bind, Except.bind]

/-- Where no file is in the way, the path alone and what is at its end decide whether a file is put
there. -/
theorem place_verdict (hp : p.Named s) :
    ∃ v : Option Failure,
      (checkPath p = .ok () → checkLength p = .ok () → Short p → v = none) ∧
      ∀ (t : FileTree) (content : List UInt8), Rooted t → t.node? (t.start p) = some .directory →
        t.Open (t.way p) → t.keyOf p ∉ t.way p →
        (∀ e, v = some e → t.place p content = .error e) ∧
        (v = none → t.node? (t.keyOf p) = some .directory →
          t.place p content = .error (.pathIo p .isADirectory)) ∧
        (v = none → t.node? (t.keyOf p) ≠ some .directory →
          ∃ t', t.place p content = .ok t' ∧ PutsOn t (t.way p) (t.keyOf p) content t') := by
  obtain ⟨ss, hsegments, hs⟩ := id hp
  obtain ⟨v, hnone, hv⟩ := directory_verdict hsegments hs
  cases v with
  | some e =>
    refine ⟨some (.pathIo p.directory e), fun hc hl hshort => by simpa using hnone hc hl hshort,
      fun t content ht hstart hopen hkey => ⟨?_, by simp, by simp⟩⟩
    rintro _ ⟨⟩
    rw [place_eq, (hv t ht hstart hopen).1 e rfl]
  | none =>
    cases hchecks : (do checkPath p; checkLength p; checkName s) with
    | error e =>
      refine ⟨some (.pathIo p e), fun hc hl hshort => ?_, fun t content ht hstart hopen hkey =>
        ⟨?_, by simp, by simp⟩⟩
      · have hname : s.utf8ByteSize ≤ nameLimit := ((short_concat hsegments).1 hshort).2 s hs
        simp [hc, hl, checkName, Nat.not_lt.2 hname, bind, Except.bind] at hchecks
      · rintro _ ⟨⟩
        obtain ⟨t', hok, hready⟩ := (hv t ht hstart hopen).2 rfl
        rw [hready.place hp hsegments hok hkey, hchecks]
    | ok _ =>
      refine ⟨none, fun _ _ _ => rfl, fun t content ht hstart hopen hkey => ?_⟩
      obtain ⟨t', hok, hready⟩ := (hv t ht hstart hopen).2 rfl
      have hplace := hready.place hp hsegments hok hkey content
      rw [hchecks] at hplace
      refine ⟨by simp, fun _ hend => ?_, fun _ hend => ?_⟩
      · simpa [hend] using hplace
      · exact ⟨_, by simpa [hend] using hplace, hready.putsOn hsegments hs hkey hend content⟩

/-- Where a file is in the way, a file is refused, also when the tree has grown. -/
theorem place_blocked (hp : p.Named s) (hstart : t.node? (t.start p) = some .directory)
    (hstraight : t.Straight (t.way p)) (hblocked : ¬ t.Open (t.way p)) :
    ∃ e, ∀ u, Keeps t u → ∀ content, u.place p content = .error e := by
  obtain ⟨ss, hsegments, hs⟩ := hp
  obtain ⟨e, he⟩ := directory_blocked hsegments hs hstart hstraight hblocked
  exact ⟨.pathIo p.directory e, fun u hu content => by rw [place_eq, he u hu]⟩

end Placing

/-- A path ends at one of some places, its way leads through others, and behind a place of its way
where nothing is, nothing is. -/
structure Allotted (ways places : Set Key) (t : FileTree) (p : Path) : Prop where
  named : ∃ s, p.Named s
  start : t.node? (t.start p) = some .directory
  way : ∀ k ∈ t.way p, k ∈ ways
  place : t.keyOf p ∈ places
  straight : t.Straight (t.way p)

/-- Files have been put at some places, and directories have been made at others where nothing
was. -/
structure Filled (ways places : Set Key) (t u : FileTree) : Prop where
  cwd : u.cwd = t.cwd
  rooted : Rooted u
  node : ∀ k, u.node? k = t.node? k ∨
    (k ∈ places ∧ t.node? k ≠ some .directory ∧ ∃ content, u.node? k = some (.file content false)) ∨
    (k ∈ ways ∧ t.node? k = none ∧ u.node? k = some .directory)

namespace Filled
variable {t u : FileTree} {ways places : Set Key}

theorem refl (ht : Rooted t) : Filled ways places t t := ⟨rfl, ht, fun _ => .inl rfl⟩

theorem keeps (h : Filled ways places t u) : Keeps t u := by
  refine ⟨h.cwd, fun k hk => ?_, fun k content x hk => ?_⟩ <;>
    rcases h.node k with he | ⟨-, hfree, content', he⟩ | ⟨-, hnone, -⟩
  · exact he.trans hk
  · exact absurd hk hfree
  · cases hnone.symm.trans hk
  · exact ⟨content, x, he.trans hk⟩
  · exact ⟨content', false, he⟩
  · cases hnone.symm.trans hk

theorem isOpen (h : Filled ways places t u) (hks : ∀ k ∈ ks, k ∉ places) (hopen : t.Open ks) :
    u.Open ks := by
  intro k hk content x hfile
  rcases h.node k with he | ⟨hmem, -⟩ | ⟨-, -, he⟩
  · exact hopen k hk content x (he ▸ hfile)
  · exact hks k hk hmem
  · cases he.symm.trans hfile

theorem putsOn (h : Filled ways places t u) {k : Key} {content : List UInt8} {u' : FileTree}
    (hputs : PutsOn u ks k content u') (hks : ∀ j ∈ ks, j ∈ ways) (hk : k ∈ places) :
    Filled ways places t u' := by
  refine ⟨hputs.cwd.trans h.cwd, hputs.rooted, fun j => ?_⟩
  by_cases hj : j = k
  · subst hj
    exact .inr (.inl ⟨hk, fun hdir => hputs.free (h.keeps.directory j hdir), content, hputs.file⟩)
  · rcases hputs.other j hj with he | ⟨hnone, hdir⟩
    · rw [he]
      exact h.node j
    · have hmade : u'.node? j ≠ u.node? j := by simp [hnone, hdir]
      refine .inr (.inr ⟨hks j (hputs.made j hj hmade), ?_, hdir⟩)
      rcases h.node j with he | ⟨-, -, content', he⟩ | ⟨-, hnone', -⟩
      · exact he.symm.trans hnone
      · cases he.symm.trans hnone
      · exact hnone'

/-- What comes of putting a file in its place is the same before and after other files have been put
into theirs. -/
theorem place (h : Filled ways places t u) (hapart : ∀ k ∈ ways, k ∉ places) (ht : Rooted t)
    {p : Path} (hp : Allotted ways places t p) (content content' : List UInt8) :
    (∃ e, t.place p content = .error e ∧ u.place p content' = .error e) ∨
      ∃ t' u', t.place p content = .ok t' ∧ u.place p content' = .ok u' ∧
        Filled ways places t u' := by
  obtain ⟨⟨s, hnamed⟩, hstart, hways, hplace, hstraight⟩ := hp
  have hcwd := start_congr h.cwd p
  have hkeyOf : u.keyOf p = t.keyOf p := keyOf_congr h.cwd p
  have hway : u.way p = t.way p := way_congr h.cwd p
  by_cases hopen : t.Open (t.way p)
  · have hkey : t.keyOf p ∉ t.way p := fun hmem => hapart _ (hways _ hmem) hplace
    have hopen' : u.Open (t.way p) := h.isOpen (fun k hk => hapart k (hways k hk)) hopen
    have hend : u.node? (t.keyOf p) = some .directory ↔ t.node? (t.keyOf p) = some .directory := by
      rcases h.node (t.keyOf p) with he | ⟨-, hfree, content, he⟩ | ⟨hmem, -⟩
      · rw [he]
      · simp [he, hfree]
      · exact absurd hplace (hapart _ hmem)
    obtain ⟨v, -, hv⟩ := place_verdict hnamed
    obtain ⟨hsome, hdir, hok⟩ := hv t content ht hstart hopen hkey
    obtain ⟨hsome', hdir', hok'⟩ := hv u content' h.rooted
      (hcwd ▸ h.keeps.directory _ hstart) (hway ▸ hopen') (by rwa [hway, hkeyOf])
    rw [hkeyOf] at hdir' hok'
    cases v with
    | some e => exact .inl ⟨e, hsome e rfl, hsome' e rfl⟩
    | none =>
      by_cases hdirectory : t.node? (t.keyOf p) = some .directory
      · exact .inl ⟨_, hdir rfl hdirectory, hdir' rfl (hend.2 hdirectory)⟩
      · obtain ⟨t', ht', -⟩ := hok rfl hdirectory
        obtain ⟨u', hu', hputs⟩ := hok' rfl fun hd => hdirectory (hend.1 hd)
        exact .inr ⟨t', u', ht', hu', h.putsOn hputs (hway ▸ hways) hplace⟩
  · obtain ⟨e, he⟩ := place_blocked hnamed hstart hstraight hopen
    exact .inl ⟨e, he t ⟨rfl, fun _ => id, fun _ content x h => ⟨content, x, h⟩⟩ content,
      he u h.keeps content'⟩

/-- Files that a tree takes each by itself it takes one after the other. -/
theorem placeAll (h : Filled ways places t u) (hapart : ∀ k ∈ ways, k ∉ places) (ht : Rooted t)
    {fs : List (Path × List UInt8)} (hp : ∀ f ∈ fs, Allotted ways places t f.1)
    (hok : ∀ f ∈ fs, ∃ t', t.place f.1 f.2 = .ok t') :
    ∃ u', u.placeAll fs = .ok u' := by
  induction fs generalizing u with
  | nil => exact ⟨u, placeAll_nil.2 rfl⟩
  | cons f fs ih =>
    rw [forall_mem_cons] at hp hok
    obtain ⟨t', ht'⟩ := hok.1
    rcases h.place hapart ht hp.1 f.2 f.2 with ⟨e, he, -⟩ | ⟨-, u₁, -, hu₁, hfilled⟩
    · cases he.symm.trans ht'
    · obtain ⟨u', hu'⟩ := ih hfilled hp.2 hok.2
      exact ⟨u', placeAll_cons.2 ⟨u₁, hu₁, hu'⟩⟩

end Filled
end FileTree
end ShaderDialect
