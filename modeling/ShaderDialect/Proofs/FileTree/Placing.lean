import ShaderDialect.Cache
import ShaderDialect.Proofs.FileTree.Resolution

/-! Putting files in their places: each file is put where its path spells, nothing else that is
there changes, and the directories it needs are made. -/
namespace ShaderDialect

open List Success

theorem Path.last_ne_empty {p : Path} {ss : List String} {last : String}
    (h : p.segments = ss ++ [last]) (hp : p.text ≠ "") (hs : p.endsInSlash = false) :
    last ≠ "" := by
  rintro rfl
  have ht := intercalate_segments p
  rw [h] at ht
  cases ss with
  | nil => exact hp (by simpa using ht.symm)
  | cons first ss =>
    rw [String.intercalate_append_of_ne_nil (by simp) (by simp)] at ht
    simp [endsInSlash, ← ht] at hs

def Path.directory (p : Path) : Path :=
  match p.parent? with
  | some dir => if dir.text.isEmpty then ⟨"."⟩ else dir
  | none => ⟨"."⟩

namespace FileTree

variable {j : Key} {f : List UInt8} {x : Bool} {q : Path}
  {t t' : FileTree} {k : Key} {p : Path} {content : List UInt8}
  {fs : List (Path × List UInt8)}

theorem grows_insert (hk : k ≠ []) (h : t.node? k ≠ some .directory) (n : Node) :
    Grows t (t.insert k n) := by
  refine ⟨rfl, fun j hj => ?_, fun j hj => ?_⟩
  · rwa [node?_insert_of_ne t (by rintro rfl; exact h hj)]
  · by_cases hjk : j = k
    · simp [hjk, node?_insert_self t hk]
    · rwa [node?_insert_of_ne t hjk]

theorem lookupLast_eq_ok {dir : Key} {s : String} (h : t.lookupLast p = .ok (dir, some (.name s)))
    (hs : p.endsInSlash = false) :
    ∃ ss, p.segments = ss ++ [s] ∧ stepOf s = .name s ∧
      t.walk (t.start p) (ss.map stepOf) = .ok dir ∧ t.node? dir = some .directory ∧
      t.keyOf p = dir ++ [s] := by
  obtain ⟨u, hc, v, hl, -⟩ : ∃ u, checkPath p = .ok u ∧ ∃ v, checkLength p = .ok v ∧ _ := by
    simpa only [lookupLast, bind_eq_ok] using h
  have hsp := (dropLast_concat_getLast p.segments_ne_nil).symm
  generalize p.segments.dropLast = ss at hsp
  generalize p.segments.getLast p.segments_ne_nil = last at hsp
  have hlast := Path.last_ne_empty hsp (checkPath_eq_ok hc) hs
  rw [lookupLast_concat hsp hlast hc hl, map_eq_ok] at h
  obtain ⟨dir, hw, he⟩ := h
  obtain ⟨rfl, hname⟩ : _ = _ ∧ stepOf last = _ := by simpa using he
  obtain rfl := stepOf_eq_name hname
  obtain ⟨hw, hd⟩ := walk_concat_here.1 hw
  exact ⟨ss, hsp, hname, hw, hd, by rw [keyOf_concat hsp hw, hname, move]⟩

/-- The same nodes and more directories. -/
structure Deepens (t t' : FileTree) : Prop where
  cwd : t'.cwd = t.cwd
  node : ∀ k, t'.node? k = t.node? k ∨ t.node? k = none ∧ t'.node? k = some .directory

theorem Deepens.refl (t : FileTree) : Deepens t t := ⟨rfl, fun _ => .inl rfl⟩

theorem Deepens.trans {t'' : FileTree} (h : Deepens t t') (h' : Deepens t' t'') :
    Deepens t t'' := by
  refine ⟨h'.cwd.trans h.cwd, fun k => ?_⟩
  rcases h.node k with hk | ⟨hk, hk'⟩ <;> rcases h'.node k with hj | ⟨hj, hj'⟩ <;> simp_all

theorem makeDirectory_deepens (h : t.makeDirectory p = .ok t') : Deepens t t' := by
  simp only [makeDirectory, bind_eq_ok] at h
  obtain ⟨⟨dir, last⟩, -, h⟩ := h
  split at h
  · next dir' s hl =>
    simp only [bind_eq_ok] at h
    obtain ⟨-, -, h⟩ := h
    split at h
    · cases h
    · next hn =>
      simp only [pure_eq_ok] at h
      subst h
      refine ⟨rfl, fun k => ?_⟩
      by_cases hk : k = dir' ++ [s]
      · subst hk
        exact .inr ⟨by simpa using hn, node?_insert_self t (by simp) _⟩
      · exact .inl (node?_insert_of_ne t hk _)
  · simp at h

theorem makeDirectoriesFrom_deepens {fuel : Nat} (h : makeDirectoriesFrom fuel t p = .ok t') :
    Deepens t t' := by
  fun_induction makeDirectoriesFrom fuel t p generalizing t' with
  | case1 => cases h; exact .refl _
  | case2 fuel t p _ t₁ hm => cases h; exact makeDirectory_deepens hm
  | case3 t p _ _ fuel dir _ ih =>
    simp only [bind_eq_ok] at h
    obtain ⟨t₁, h₁, h⟩ := h
    split at h
    · next hm => cases h; exact (ih h₁).trans (makeDirectory_deepens hm)
    · split at h
      · cases h; exact ih h₁
      · cases h
  | case4 => cases h
  | case5 => cases h; exact .refl _
  | case6 => cases h

/-- A file is put at a key, and directories where nothing was. -/
structure Puts (t : FileTree) (k : Key) (content : List UInt8) (t' : FileTree) : Prop where
  cwd : t'.cwd = t.cwd
  file : t'.node? k = some (.file content false)
  free : t.node? k ≠ some .directory
  other : ∀ j, j ≠ k → t'.node? j = t.node? j ∨ t.node? j = none ∧ t'.node? j = some .directory

theorem write_puts (h : t.write p content = .ok t') :
    Puts t (t.keyOf p) content t' ∧ t'.resolve p = .ok (t.keyOf p) := by
  simp only [write, bind_eq_ok] at h
  obtain ⟨⟨dir, last⟩, hl, h⟩ := h
  split at h
  · next dir s heq =>
    cases heq
    by_cases hs : p.endsInSlash = true
    · rw [if_pos hs] at h
      cases h
    rw [if_neg hs, bind_eq_ok] at h
    obtain ⟨u, hn, h⟩ := h
    by_cases hfree : t.node? (dir ++ [s]) = some .directory
    · rw [if_pos hfree] at h
      cases h
    rw [if_neg hfree, pure_eq_ok] at h
    subst h
    obtain ⟨ss, hss, hname, hw, hd, hkey⟩ := lookupLast_eq_ok hl (by simpa using hs)
    have hne : dir ++ [s] ≠ [] := by simp
    have hg := grows_insert hne hfree (.file content false)
    rw [hkey]
    refine ⟨⟨rfl, node?_insert_self t hne _, hfree, fun j hj => ?_⟩, ?_⟩
    · exact .inl (node?_insert_of_ne t hj _)
    · simp only [lookupLast, bind_eq_ok] at hl
      obtain ⟨_, hc, _, hc', -⟩ := hl
      refine resolve_eq_ok.2 ⟨hc, hc', ?_⟩
      rw [hss, map_append, walk_append]
      refine ⟨dir, hg.walk hw, walk_cons.2 ⟨hg.directory dir hd, ?_, by simp [hname, move, walk]⟩⟩
      intro s' hs'
      obtain rfl : s = s' := by simpa [hname] using hs'
      refine ⟨?_, by simp [node?_insert_self t hne]⟩
      simpa [checkName] using hn
  · cases h

theorem place_eq (t : FileTree) (p : Path) (content : List UInt8) :
    t.place p content = match t.makeDirectories p.directory with
      | .error e => .error (.pathIo p.directory e)
      | .ok t =>
        match t.write p content with
        | .error e => .error (.pathIo p e)
        | .ok t => .ok t := by
  delta place Path.directory
  cases p.parent? <;> rfl

theorem place_puts (h : t.place p content = .ok t') :
    Puts t (t.keyOf p) content t' ∧ t'.resolve p = .ok (t.keyOf p) := by
  rw [place_eq] at h
  split at h
  · cases h
  · next t₁ hm =>
    split at h
    · cases h
    · next t₂ hw =>
      cases h
      have hd := makeDirectoriesFrom_deepens hm
      obtain ⟨hp, hr⟩ := write_puts hw
      rw [keyOf_congr hd.cwd] at hp hr
      refine ⟨⟨hp.cwd.trans hd.cwd, hp.file, fun hn => ?_, fun j hj => ?_⟩, hr⟩
      · rcases hd.node (t.keyOf p) with he | ⟨he, he'⟩
        · exact hp.free (he.trans hn)
        · exact hp.free he'
      · have ho := hp.other j hj
        rcases hd.node j with he | ⟨he, he'⟩
        · rwa [he] at ho
        · rcases ho with ho | ho <;> simp_all

namespace Puts

theorem grows (h : Puts t k content t') : Grows t t' := by
  refine ⟨h.cwd, fun j hj => ?_, fun j hj => ?_⟩
  · have hne : j ≠ k := by
      rintro rfl
      exact h.free hj
    rcases h.other j hne with he | ⟨he, -⟩
    · exact he.trans hj
    · simp [hj] at he
  · by_cases hne : j = k
    · simp [hne, h.file]
    · rcases h.other j hne with he | ⟨-, he⟩ <;> simp_all

theorem file_iff (h : Puts t k content t') (hj : j ≠ k) :
    t'.node? j = some (.file f x) ↔ t.node? j = some (.file f x) := by
  rcases h.other j hj with he | ⟨he, he'⟩ <;> simp_all

theorem read_of_ne (h : Puts t k content t') (hq : t.keyOf q ≠ k) (hr : t.read q = .ok f) :
    t'.read q = .ok f := by
  rw [read_eq_ok] at hr ⊢
  rw [keyOf_congr h.cwd]
  obtain ⟨hr, x, hn⟩ := hr
  exact ⟨h.grows.resolve hr, x, (h.file_iff hq).2 hn⟩

theorem read_of_eq (h : Puts t k content t') (hq : t.keyOf q = k) (hr : t'.resolve q = .ok j) :
    t'.read q = .ok content := by
  obtain rfl := resolve_eq hr
  rw [read_eq_ok]
  refine ⟨hr, false, ?_⟩
  rw [keyOf_congr h.cwd, hq]
  exact h.file

end Puts

def placeAll (t : FileTree) (files : List (Path × List UInt8)) : Except Failure FileTree :=
  files.foldlM (fun t f => t.place f.1 f.2) t

theorem placeAll_append {gs : List (Path × List UInt8)} :
    t.placeAll (fs ++ gs) = .ok t' ↔ ∃ t₁, t.placeAll fs = .ok t₁ ∧ t₁.placeAll gs = .ok t' := by
  simp [placeAll]

theorem placeAll_cons {f : Path × List UInt8} :
    t.placeAll (f :: fs) = .ok t' ↔ ∃ t₁, t.place f.1 f.2 = .ok t₁ ∧ t₁.placeAll fs = .ok t' := by
  simp [placeAll]

theorem placeAll_nil : t.placeAll [] = .ok t' ↔ t = t' := by
  simp [placeAll]

theorem grows_placeAll (h : t.placeAll fs = .ok t') : Grows t t' := by
  induction fs generalizing t with
  | nil => exact placeAll_nil.1 h ▸ .refl t
  | cons f fs ih =>
    obtain ⟨t₁, h₁, h⟩ := placeAll_cons.1 h
    exact (place_puts h₁).1.grows.trans (ih h)

/-- A file whose place is none of theirs is untouched. -/
theorem file_iff_placeAll (h : t.placeAll fs = .ok t') (hk : ∀ p ∈ fs.map Prod.fst, t.keyOf p ≠ k) :
    t'.node? k = some (.file f x) ↔ t.node? k = some (.file f x) := by
  induction fs generalizing t with
  | nil => rw [placeAll_nil.1 h]
  | cons file fs ih =>
    obtain ⟨t₁, h₁, h⟩ := placeAll_cons.1 h
    rw [map_cons, forall_mem_cons] at hk
    have hputs := (place_puts h₁).1
    rw [ih h fun p hp => keyOf_congr hputs.cwd p ▸ hk.2 p hp, hputs.file_iff hk.1.symm]

/-- What is in the places afterwards does not depend on what was there before. -/
theorem read_placeAll {u u' : FileTree} (hc : u.cwd = t.cwd) (ht : t.placeAll fs = .ok t')
    (hu : u.placeAll fs = .ok u')
    (hp : (∃ f, t.read p = .ok f ∧ u.read p = .ok f) ∨ p ∈ fs.map Prod.fst) :
    ∃ f, t'.read p = .ok f ∧ u'.read p = .ok f := by
  induction fs generalizing t u with
  | nil =>
    obtain rfl := placeAll_nil.1 ht
    obtain rfl := placeAll_nil.1 hu
    simpa using hp
  | cons file fs ih =>
    obtain ⟨t₁, ht₁, ht⟩ := placeAll_cons.1 ht
    obtain ⟨u₁, hu₁, hu⟩ := placeAll_cons.1 hu
    obtain ⟨hpt, hrt⟩ := place_puts ht₁
    obtain ⟨hpu, hru⟩ := place_puts hu₁
    rw [keyOf_congr hc] at hpu hru
    refine ih (by rw [hpt.cwd, hpu.cwd, hc]) ht hu ?_
    rw [map_cons, mem_cons] at hp
    rcases hp with ⟨f, hf, hf'⟩ | rfl | hp
    · by_cases hk : t.keyOf p = t.keyOf file.1
      · have hres := (read_eq_ok.1 hf).1
        have hres' := (read_eq_ok.1 hf').1
        rw [keyOf_congr hc] at hres'
        exact .inl ⟨_, hpt.read_of_eq hk (hpt.grows.resolve hres),
          hpu.read_of_eq (keyOf_congr hc p ▸ hk) (hpu.grows.resolve hres')⟩
      · exact .inl ⟨f, hpt.read_of_ne hk hf, hpu.read_of_ne (keyOf_congr hc p ▸ hk) hf'⟩
    · exact .inl ⟨_, hpt.read_of_eq rfl hrt, hpu.read_of_eq (keyOf_congr hc _) hru⟩
    · exact .inr hp

end FileTree
end ShaderDialect
