import ShaderDialect.Proofs.FileTree.Outcomes

/-! What is found in a tree after files have been put into it. Where none of them was put, all is
found as before, on paths that do not lead back from a place where nothing was. -/
namespace ShaderDialect

open List Success

namespace FileTree

/-- A tree as file systems have them: whatever there is has a name and stands in a directory. -/
structure Proper (t : FileTree) : Prop where
  rooted : Rooted t
  cwd : t.node? t.cwd = some .directory
  names : ∀ k, (t.node? k).isSome → ∀ s ∈ k, '/' ∉ s.toList ∧ stepOf s = .name s

section Walking
variable {t u : FileTree} {k k' j : Key} {cs : List Path.Component}

theorem proper_of_nodes (hcwd : t.node? t.cwd = some .directory)
    (h : ∀ e ∈ t.nodes, t.node? e.1.dropLast = some .directory ∧
      ∀ s ∈ e.1, '/' ∉ s.toList ∧ stepOf s = .name s) : Proper t := by
  refine ⟨rooted_of_nodes fun e he => (h e he).1, hcwd, fun k hk s hs => ?_⟩
  rw [node?, if_neg (ne_nil_of_mem hs)] at hk
  obtain ⟨n, hn⟩ := Option.isSome_iff_exists.1 hk
  obtain ⟨before, after, hnodes, -⟩ := lookup_eq_some_iff.1 hn
  exact (h (k, n) (by simp [hnodes])).2 s hs

theorem Rooted.isSome_of_append (h : Rooted t) {l : Key} (hl : (t.node? (j ++ l)).isSome) :
    (t.node? j).isSome := by
  induction l using List.reverseRecOn with
  | nil => simpa using hl
  | append_singleton l s ih =>
    rw [← append_assoc] at hl
    exact ih (by rw [h _ s hl]; rfl)

theorem isSome_of_walk (ht : Rooted t) (hk : (t.node? k).isSome) (h : t.walk k cs = .ok k') :
    (t.node? k').isSome := by
  induction cs generalizing k with
  | nil =>
    cases h
    exact hk
  | cons c cs ih =>
    obtain ⟨hd, hname, hw⟩ := walk_cons.1 h
    refine ih ?_ hw
    cases c with
    | root => rw [move, node?_nil]; rfl
    | here => exact hk
    | up => rw [move, ht.dropLast hd]; rfl
    | name s => exact (hname s rfl).2

/-- A walk that finds something missing leads through a place where nothing is. -/
theorem exists_none_of_walk (h : t.walk k cs = .error .notFound) :
    ∃ j ∈ trail k cs, t.node? j = none := by
  induction cs generalizing k with
  | nil => cases h
  | cons c cs ih =>
    rcases walk_cons_error.1 h with h | ⟨-, h⟩
    · rcases step_notFound h with hk | ⟨-, hk⟩
      · exact ⟨k, mem_cons_self, hk⟩
      · exact ⟨move k c, mem_cons_of_mem _ (start_mem_trail _ _), hk⟩
    · obtain ⟨j, hj, hnone⟩ := ih h
      exact ⟨j, mem_cons_of_mem _ hj, hnone⟩

/-- A walk that leads only through what is there is the same when the tree has grown. -/
theorem Keeps.walk_eq (h : Keeps t u) (hsome : ∀ j ∈ trail k cs, (t.node? j).isSome) :
    u.walk k cs = t.walk k cs := by
  cases hw : t.walk k cs with
  | ok k' => exact h.grows.walk hw
  | error e =>
    refine h.walk_error hw ?_
    rintro rfl
    obtain ⟨j, hj, hnone⟩ := exists_none_of_walk hw
    simpa [hnone] using hsome j hj

/-- If something is missing on a straight way, then its end is missing too. -/
theorem Straight.end_eq_none (h : t.Straight (trail k cs)) (hj : j ∈ trail k cs)
    (hnone : t.node? j = none) : t.node? (cs.foldl move k) = none := by
  induction cs generalizing k with
  | nil =>
    obtain rfl := mem_singleton.1 hj
    exact hnone
  | cons c cs ih =>
    obtain ⟨hfirst, hrest⟩ := pairwise_cons.1 h
    rcases mem_cons.1 hj with rfl | hj
    · exact hfirst _ (end_mem_trail _ _) hnone
    · exact ih hrest hj

end Walking

section Canonical
variable {t : FileTree} {k j : Key} {p file : Path}

theorem mem_trail_names {ss : List String} (h : j ∈ trail k (ss.map .name)) :
    ∃ l, k ++ ss = j ++ l := by
  induction ss generalizing k with
  | nil => exact ⟨[], by simpa [trail, eq_comm] using h⟩
  | cons s ss ih =>
    rcases mem_cons.1 h with rfl | h
    · exact ⟨s :: ss, rfl⟩
    · obtain ⟨l, hl⟩ := ih h
      exact ⟨l, by simpa [move] using hl⟩

theorem foldl_move_names (k : Key) (ss : List String) : (ss.map .name).foldl move k = k ++ ss := by
  induction ss generalizing k with
  | nil => simp
  | cons s ss ih => simp [move, ih]

/-- A path that spells names leads through the directories that they stand in, and to them. -/
theorem pathOf_leads (t : FileTree) (h : ∀ s ∈ k, '/' ∉ s.toList ∧ stepOf s = .name s) :
    t.keyOf (pathOf k) = k ∧ ∀ j ∈ t.visited (pathOf k), ∃ l, k = j ++ l := by
  have hstart : t.start (pathOf k) = [] := by simp [start, pathOf, Path.isAbsolute]
  have hsegments : (pathOf k).segments = "" :: Path.segments ⟨"/".intercalate k⟩ :=
    Path.segments_append_slash "" _
  cases hk : k with
  | nil =>
    subst hk
    refine ⟨rfl, fun j hj => ?_⟩
    have hj : j ∈ trail [] [.here, .here] := hj
    simp only [trail, move, mem_cons, not_mem_nil, or_false, or_self] at hj
    exact ⟨[], by simp [hj]⟩
  | cons s ss =>
    have hsteps : (pathOf k).segments.map stepOf = .here :: k.map .name := by
      rw [hsegments, Path.segments_intercalate (by simp [hk]) fun s hs => (h s hs).1, map_cons,
        map_congr_left fun s hs => (h s hs).2]
      rfl
    rw [← hk, keyOf, visited, hstart, hsteps]
    refine ⟨foldl_move_names [] k, fun j hj => ?_⟩
    rcases mem_cons.1 hj with rfl | hj
    · exact ⟨k, rfl⟩
    · exact mem_trail_names hj

theorem canonical_eq_ok : t.canonical p = .ok file ↔
    t.find p = .ok (t.keyOf p) ∧ file = pathOf (t.keyOf p) := by
  simp only [canonical, bind_eq_ok, pure_eq_ok]
  constructor
  · rintro ⟨k, hfind, rfl⟩
    have hk : k = t.keyOf p := by
      simp only [find, bind_eq_ok] at hfind
      obtain ⟨-, -, hw⟩ := hfind
      exact walk_eq hw
    exact ⟨hk ▸ hfind, by rw [hk]⟩
  · rintro ⟨hfind, rfl⟩
    exact ⟨_, hfind, rfl⟩

/-- The canonical path of a name in the working directory ends in that name. -/
theorem canonical_name {s : String}
    (hchars : '/' ∉ s.toList ∧ '\x00' ∉ s.toList ∧ 3 ≤ s.toList.length)
    (hlimit : s.utf8ByteSize ≤ nameLimit) (hcwd : t.node? t.cwd = some .directory)
    (hnode : (t.node? (t.cwd ++ [s])).isSome) : t.canonical ⟨s⟩ = .ok (pathOf (t.cwd ++ [s])) := by
  obtain ⟨hslash, hnul, hlength⟩ := hchars
  rw [String.length_toList] at hlength
  have hstart : t.start ⟨s⟩ = t.cwd := by simp [start, Path.isAbsolute_of_not_mem hslash]
  have hcheck : checkPath ⟨s⟩ = .ok () := by
    have hne : s ≠ "" := by rintro rfl; cases hlength
    simp [checkPath, hnul, hne]
  have hwalk : t.walk t.cwd [.name s] = .ok (t.cwd ++ [s]) :=
    walk_cons.2 ⟨hcwd, fun s' hs' => by cases hs'; exact ⟨hlimit, hnode⟩, rfl⟩
  simp only [canonical, find, bind_eq_ok, pure_eq_ok, Path.segments_of_not_mem hslash, map_cons,
    map_nil, stepOf_of_length hlength, hstart]
  exact ⟨_, ⟨(), hcheck, hwalk⟩, rfl⟩

theorem Proper.isSome_of_canonical (ht : Proper t) (h : t.canonical p = .ok file) :
    (t.node? (t.keyOf p)).isSome := by
  have hfind := (canonical_eq_ok.1 h).1
  simp only [find, bind_eq_ok] at hfind
  obtain ⟨-, -, hw⟩ := hfind
  refine isSome_of_walk ht.rooted ?_ hw
  unfold start
  split
  · rw [node?_nil]; rfl
  · rw [ht.cwd]; rfl

end Canonical

namespace Filled
variable {t u : FileTree} {ways places : Set Key} {p file : Path}

theorem node_eq (h : Filled ways places t u) {k : Key} (hk : (t.node? k).isSome)
    (hplace : k ∉ places) : u.node? k = t.node? k := by
  rcases h.node k with he | ⟨hmem, -⟩ | ⟨-, hnone, -⟩
  · exact he
  · exact absurd hmem hplace
  · simp [hnone] at hk

theorem resolve_eq (h : Filled ways places t u) (hsome : ∀ k ∈ t.visited p, (t.node? k).isSome) :
    u.resolve p = t.resolve p := by
  simp only [resolve, start_congr h.cwd]
  rw [h.keeps.walk_eq hsome]

/-- Whether a path leads to a file does not change, if it is straight and no file was put at its
end. -/
theorem isFile (h : Filled ways places t u) (hstraight : t.Straight (t.visited p))
    (hplace : t.keyOf p ∉ places) : u.isFile p = t.isFile p := by
  rw [Bool.eq_iff_iff, isFile_iff, isFile_iff]
  simp only [read_eq_ok, keyOf_congr h.cwd]
  constructor
  · rintro ⟨content, hr, x, hfile⟩
    have hnode : t.node? (t.keyOf p) = some (.file content x) := by
      rcases h.node (t.keyOf p) with he | ⟨hmem, -⟩ | ⟨-, -, he⟩
      · exact he ▸ hfile
      · exact absurd hmem hplace
      · cases he.symm.trans hfile
    -- The end is there, so nothing is missing on the way.
    have hsome : ∀ k ∈ t.visited p, (t.node? k).isSome := by
      intro k hk
      by_contra hnone
      have hend := hstraight.end_eq_none hk (by simpa using hnone)
      cases hend.symm.trans hnode
    exact ⟨content, h.resolve_eq hsome ▸ hr, x, hnode⟩
  · rintro ⟨content, hr, x, hfile⟩
    exact ⟨content, h.keeps.grows.resolve hr, x, (h.node_eq (by simp [hfile]) hplace).trans hfile⟩

theorem canonical (h : Filled ways places t u) (hc : t.canonical p = .ok file) :
    u.canonical p = .ok file := by
  obtain ⟨hfind, rfl⟩ := canonical_eq_ok.1 hc
  have hkey : u.keyOf p = t.keyOf p := keyOf_congr h.cwd p
  refine canonical_eq_ok.2 ⟨?_, by rw [hkey]⟩
  simp only [find, bind_eq_ok] at hfind ⊢
  obtain ⟨_, hchecked, hw⟩ := hfind
  refine ⟨_, hchecked, ?_⟩
  rw [hkey, start_congr h.cwd]
  exact h.keeps.grows.walk hw

theorem read_canonical (h : Filled ways places t u) (ht : Proper t) (hc : t.canonical p = .ok file)
    (hplace : t.keyOf p ∉ places) : u.read file = t.read file := by
  have hsome := ht.isSome_of_canonical hc
  obtain ⟨hfind, rfl⟩ := canonical_eq_ok.1 hc
  obtain ⟨hkey, hvisited⟩ := pathOf_leads t (ht.names _ hsome)
  have hresolve : u.resolve (pathOf (t.keyOf p)) = t.resolve (pathOf (t.keyOf p)) := by
    refine h.resolve_eq fun j hj => ?_
    obtain ⟨l, hl⟩ := hvisited j hj
    exact ht.rooted.isSome_of_append (hl ▸ hsome)
  rw [read, read, hresolve]
  cases hr : t.resolve (pathOf (t.keyOf p)) with
  | error e => rfl
  | ok k =>
    obtain rfl : k = t.keyOf p := (FileTree.resolve_eq hr).trans hkey
    simp only [bind, Except.bind, h.node_eq hsome hplace]

end Filled
end FileTree
end ShaderDialect
