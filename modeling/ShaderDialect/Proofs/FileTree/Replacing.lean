import Mathlib.Data.List.Induction
import ShaderDialect.Proofs.FileTree.Placing

/-! A file that is there can be put there again: the directories that it needs are there too. -/
namespace ShaderDialect

open List Success

namespace Path
variable {s : String} {ss : List String}

theorem stepOf_of_not_isSignificant {i : Nat} (h : isSignificant i s = false) :
    FileTree.stepOf s = .here := by
  by_cases he : s = ""
  · simp [he, FileTree.stepOf]
  · simp only [isSignificant, Bool.and_eq_false_iff, Bool.not_eq_false', String.isEmpty_iff, he,
      false_or, Bool.or_eq_false_iff, bne_eq_false_iff_eq] at h
    simp [h.1, FileTree.stepOf]

/-- What is dropped from the end of a path's segments asks for nothing but a directory. -/
theorem dropEmptyEnd_append (ss : List String) :
    ∃ tail, ss = dropEmptyEnd ss ++ tail ∧ ∀ s ∈ tail, FileTree.stepOf s = .here := by
  refine ⟨((ss.zipIdx.reverse.takeWhile fun e => !isSignificant e.2 e.1).reverse).map (·.1), ?_, ?_⟩
  · rw [dropEmptyEnd, ← map_append, ← reverse_append, takeWhile_append_dropWhile,
      reverse_reverse, zipIdx_map_fst]
  · intro s hs
    obtain ⟨⟨s, i⟩, hi, rfl⟩ := mem_map.1 hs
    have hall := all_eq_true.1 all_takeWhile _ (mem_reverse.1 hi)
    exact stepOf_of_not_isSignificant (i := i) (by simpa using hall)

theorem dropEmptyEnd_concat (ss : List String) (s : String) :
    dropEmptyEnd (ss ++ [s]) =
      if isSignificant ss.length s then ss ++ [s] else dropEmptyEnd ss := by
  by_cases hs : isSignificant ss.length s = true
  · simp [dropEmptyEnd, zipIdx_append, hs]
  · simp [dropEmptyEnd, zipIdx_append, hs]

/-- What is left when the end is dropped is empty or ends in a component. -/
theorem dropEmptyEnd_cases (ss : List String) : dropEmptyEnd ss = [] ∨
    ∃ init last, dropEmptyEnd ss = init ++ [last] ∧ isSignificant init.length last = true := by
  induction ss using List.reverseRecOn with
  | nil => exact .inl rfl
  | append_singleton ss s ih =>
    rw [dropEmptyEnd_concat]
    split
    · next hs => exact .inr ⟨ss, s, rfl, hs⟩
    · exact ih

theorem dropEmptyEnd_ne_empty (ss : List String) : dropEmptyEnd ss ≠ [""] := by
  intro h
  have hhead := head?_dropWhile_not (fun e : String × Nat => !isSignificant e.2 e.1)
    ss.zipIdx.reverse
  rw [dropEmptyEnd] at h
  cases hl : ss.zipIdx.reverse.dropWhile fun e => !isSignificant e.2 e.1 with
  | nil => simp [hl] at h
  | cons e es =>
    obtain ⟨s, i⟩ := e
    simp_all [isSignificant]

theorem intercalate_dropEmptyEnd_ne_empty (h : dropEmptyEnd ss ≠ []) :
    "/".intercalate (dropEmptyEnd ss) ≠ "" := by
  intro he
  rw [← String.toList_inj, String.toList_intercalate] at he
  cases hd : dropEmptyEnd ss with
  | nil => exact h hd
  | cons first rest =>
    cases rest with
    | nil => exact dropEmptyEnd_ne_empty ss (by simp_all)
    | cons second rest => simp [hd] at he

theorem Named.endsInSlash {p : Path} (h : p.Named s) : p.endsInSlash = false := by
  have hs := h.ne_empty
  obtain ⟨ss, hp, -⟩ := h
  rw [Path.endsInSlash, beq_eq_false_iff_ne]
  intro hl
  obtain ⟨cs, hcs⟩ := getLast?_eq_some_iff.1 hl
  obtain ⟨text⟩ := p
  have ht : text = String.ofList cs ++ "/" ++ "" := by simp [← String.toList_inj, hcs]
  rw [ht, segments_append_slash] at hp
  have : [""] = [s] := (append_inj' hp rfl).2
  simp_all

theorem parent?_concat {p : Path} {init : List String} {last : String}
    (hp : p.segments = init ++ [last]) (hlast : isSignificant init.length last = true) :
    p.parent? = some (if dropEmptyEnd init = [] then ⟨if p.isAbsolute then "/" else ""⟩
      else ⟨"/".intercalate (dropEmptyEnd init)⟩) := by
  simp only [parent?, hp, dropEmptyEnd_concat, if_pos hlast, dropLast_concat]
  rw [if_neg (by simp)]
  cases dropEmptyEnd init <;> rfl

theorem directory_of_name {p : Path} (hp : p.segments = ss ++ [s])
    (hs : FileTree.stepOf s = .name s) :
    p.directory = if dropEmptyEnd ss = [] then ⟨if p.isAbsolute then "/" else "."⟩
      else ⟨"/".intercalate (dropEmptyEnd ss)⟩ := by
  have hsig : isSignificant ss.length s = true := by
    by_contra hnot
    simp [stepOf_of_not_isSignificant (Bool.eq_false_iff.2 hnot)] at hs
  rw [directory, parent?_concat hp hsig]
  by_cases hne : dropEmptyEnd ss = []
  · cases p.isAbsolute <;> simp [hne]
  · simp [hne, intercalate_dropEmptyEnd_ne_empty hne]

/-- A path ends in a component, and another one goes on from it after the segments `ss`, of which it
leaves out what asks for nothing. -/
structure Stem (q p : Path) (ss : List String) : Prop where
  last : ∃ init last, q.segments = init ++ [last] ∧ isSignificant init.length last = true
  rest : ∃ tail, ss = q.segments ++ tail ∧ ∀ c ∈ tail.map FileTree.stepOf, c = .here
  ne_empty : q.text ≠ ""
  text : ∃ more, p.text = q.text ++ "/" ++ more

theorem stem_intercalate {p : Path} {ss : List String} {s : String} (hp : p.segments = ss ++ [s])
    (hne : dropEmptyEnd ss ≠ []) :
    Stem ⟨"/".intercalate (dropEmptyEnd ss)⟩ p ss ∧
      segments ⟨"/".intercalate (dropEmptyEnd ss)⟩ = dropEmptyEnd ss := by
  obtain ⟨tail, htail, hhere⟩ := dropEmptyEnd_append ss
  have hempty := intercalate_dropEmptyEnd_ne_empty hne
  have hcases := dropEmptyEnd_cases ss
  generalize dropEmptyEnd ss = rest at htail hcases hne hempty
  have hmem : ∀ s' ∈ rest, s' ∈ p.segments := by
    intro s' hs'
    rw [hp, htail]
    exact mem_append_left _ (mem_append_left _ hs')
  have hsegments := segments_intercalate hne fun s' hs' => not_mem_of_mem_segments (hmem s' hs')
  have htext := intercalate_segments p
  rw [hp, htail, append_assoc, String.intercalate_append_of_ne_nil hne (by simp)] at htext
  refine ⟨⟨?_, ⟨tail, by rw [hsegments, htail], by simpa using hhere⟩, hempty, _, htext.symm⟩,
    hsegments⟩
  rw [hsegments]
  exact hcases.resolve_left hne

end Path

namespace FileTree
variable {t : FileTree} {k k' : Key} {cs : List Path.Component} {ss : List String} {p q : Path}
  {s : String}

theorem node?_of_walk_append {c : Path.Component}
    (h : t.walk k (cs ++ [c]) = .ok k') :
    ∃ d, t.walk k cs = .ok d ∧ t.node? d = some .directory ∧
      ∀ s, c = .name s → s.utf8ByteSize ≤ nameLimit ∧ (t.node? (d ++ [s])).isSome := by
  obtain ⟨d, hd, h⟩ := walk_append.1 h
  obtain ⟨hn, hs, -⟩ := walk_cons.1 h
  exact ⟨d, hd, hn, hs⟩

theorem walk_here (cs : List Path.Component) (h : ∀ c ∈ cs, c = .here) (hw : t.walk k cs = .ok k') :
    k' = k := by
  induction cs with
  | nil => simpa [walk, eq_comm] using hw
  | cons c cs ih =>
    obtain rfl := h c mem_cons_self
    exact ih (fun c hc => h c (mem_cons_of_mem _ hc)) (walk_cons.1 hw).2.2

theorem walk_of_here (hk : t.node? k = some .directory) (h : ∀ c ∈ cs, c = .here) :
    t.walk k cs = .ok k := by
  induction cs with
  | nil => rfl
  | cons c cs ih =>
    rw [forall_mem_cons] at h
    obtain ⟨rfl, h⟩ := h
    rw [walk.eq_def]
    simpa [hk] using ih h

theorem node?_nil (t : FileTree) : t.node? [] = some .directory := if_pos rfl

theorem isDirectory_iff : t.isDirectory p = true ↔
    t.resolve p = .ok (t.keyOf p) ∧ t.node? (t.keyOf p) = some .directory := by
  simp only [isDirectory]
  cases h : t.resolve p with
  | error e => simp
  | ok k => simp [resolve_eq h]

theorem makeDirectory_of_isDirectory (h : t.isDirectory p = true) :
    t.makeDirectory p = .error .alreadyExists := by
  obtain ⟨hr, hdir⟩ := isDirectory_iff.1 h
  obtain ⟨hc, hl, hw⟩ := resolve_eq_ok.1 hr
  have hstart : t.node? (t.start p) = some .directory := by
    cases hs : p.segments with
    | nil => exact absurd hs p.segments_ne_nil
    | cons s ss => exact (walk_cons.1 (by simpa [hs] using hw)).1
  have hhere := walk_concat_here.2 ⟨hw, hdir⟩
  rw [← walk_filter_here] at hhere
  have hw := (walk_concat_here.1 hhere).1
  simp only [makeDirectory, lookupLast, hc, hl, bind, Except.bind]
  cases hs : ((p.segments.filter (· != "")).map stepOf).getLast? with
  | none =>
    rw [getLast?_eq_none_iff] at hs
    simp [hs, walk, hstart, pure, Except.pure, throw, throwThe, MonadExceptOf.throw]
  | some c =>
    obtain ⟨cs, hcs⟩ := getLast?_eq_some_iff.1 hs
    rw [hcs] at hw
    obtain ⟨d, hd, hn, hname⟩ := node?_of_walk_append hw
    rw [hcs, dropLast_concat, walk_concat_here.2 ⟨hd, hn⟩]
    cases c with
    | name s =>
      obtain ⟨hlen, hsome⟩ := hname s rfl
      simp [checkName, Nat.not_lt.2 hlen, hsome, pure, Except.pure, throw, throwThe,
        MonadExceptOf.throw]
    | _ => rfl

theorem makeDirectories_of_isDirectory (h : t.isDirectory p = true) :
    t.makeDirectories p = .ok t := by
  have hm := makeDirectory_of_isDirectory h
  rw [makeDirectories, makeDirectoriesFrom.eq_def]
  split
  simp [hm, h]

theorem isDirectory_iff_walk (hc : checkPath p = .ok ()) (hl : checkLength p = .ok ()) :
    t.isDirectory p = true ↔ t.walk (t.start p) (p.segments.map stepOf) = .ok (t.keyOf p) ∧
      t.node? (t.keyOf p) = some .directory := by
  rw [isDirectory_iff]
  simp only [resolve, hc, hl, bind, Except.bind]

theorem start_of_append {more : String} (hq : q.text ≠ "") (hp : p.text = q.text ++ "/" ++ more)
    (t : FileTree) : t.start q = t.start p := by
  obtain ⟨text⟩ := q
  cases htext : text.toList with
  | nil => exact absurd (String.toList_eq_nil_iff.1 htext) hq
  | cons c cs => simp [start, Path.isAbsolute, hp, htext]

theorem checks_of_append {more : String} (hq : q.text ≠ "") (hp : p.text = q.text ++ "/" ++ more)
    (hc : checkPath p = .ok ()) (hl : checkLength p = .ok ()) :
    checkPath q = .ok () ∧ checkLength q = .ok () := by
  constructor
  · simp only [checkPath, hp] at hc ⊢
    split at hc
    · cases hc
    · next hnul => simp_all
  · simp only [checkLength, hp] at hl ⊢
    split at hl
    · cases hl
    · next hlength =>
      rw [if_neg]
      simp only [String.utf8ByteSize_append] at hlength
      omega

/-- A path leads to the directory that another one goes on from. -/
theorem isDirectory_of_stem (h : q.Stem p ss) (hc : checkPath p = .ok ())
    (hl : checkLength p = .ok ()) (hw : t.walk (t.start p) (ss.map stepOf) = .ok k)
    (hk : t.node? k = some .directory) : t.isDirectory q = true := by
  obtain ⟨-, ⟨tail, rfl, hhere⟩, hne, more, htext⟩ := h
  obtain ⟨hcq, hlq⟩ := checks_of_append hne htext hc hl
  rw [map_append] at hw
  obtain ⟨k₁, hw, hrest⟩ := walk_append.1 hw
  obtain rfl := walk_here _ hhere hrest
  rw [← start_of_append hne htext] at hw
  obtain rfl : k = t.keyOf q := walk_eq hw
  exact (isDirectory_iff_walk hcq hlq).2 ⟨hw, hk⟩

/-- The directory of a named path is where the path starts, or it goes on from there. -/
theorem directory_cases (hp : p.segments = ss ++ [s]) (hs : stepOf s = .name s) :
    (∀ c ∈ ss.map stepOf, c = .here) ∧ p.directory = ⟨if p.isAbsolute then "/" else "."⟩ ∨
      p.directory.Stem p ss := by
  rw [Path.directory_of_name hp hs]
  split
  · next hnil =>
    obtain ⟨tail, htail, hhere⟩ := Path.dropEmptyEnd_append ss
    rw [hnil, nil_append] at htail
    exact .inl ⟨by simpa [htail] using hhere, rfl⟩
  · next hne => exact .inr (Path.stem_intercalate hp hne).1

theorem isDirectory_start (hstart : t.node? (t.start p) = some .directory) :
    t.isDirectory ⟨if p.isAbsolute then "/" else "."⟩ = true := by
  cases ha : p.isAbsolute with
  | true =>
    have hr : t.resolve ⟨"/"⟩ = .ok [] := rfl
    simp [isDirectory, hr, node?]
  | false =>
    simp only [start, ha, Bool.false_eq_true, ite_false] at hstart
    have hr : t.resolve ⟨"."⟩ = t.walk t.cwd [.here] := rfl
    simp [isDirectory, hr, walk, hstart]

theorem isDirectory_directory (hp : p.segments = ss ++ [s]) (hs : stepOf s = .name s)
    (h : t.resolve p = .ok k) : t.isDirectory p.directory = true := by
  obtain ⟨hc, hl, hw⟩ := resolve_eq_ok.1 h
  rw [hp, map_append] at hw
  obtain ⟨d, hd, hn, -⟩ := node?_of_walk_append hw
  rcases directory_cases hp hs with ⟨hhere, hdir⟩ | hstem
  · rw [hdir]
    exact isDirectory_start (walk_here _ hhere hd ▸ hn)
  · exact isDirectory_of_stem hstem hc hl hd hn

theorem write_of_walk (hp : p.Named s) (hsegments : p.segments = ss ++ [s]) {dir : Key}
    (hw : t.walk (t.start p) (ss.map stepOf) = .ok dir) (hd : t.node? dir = some .directory)
    (content : List UInt8) :
    t.write p content = (do
      checkPath p
      checkLength p
      checkName s
      if t.node? (t.keyOf p) = some .directory then .error .isADirectory
      else .ok (t.insert (t.keyOf p) (.file content false))) := by
  have hslash := hp.endsInSlash
  have hne := hp.ne_empty
  obtain ⟨ss', hsegments', hs⟩ := hp
  obtain rfl := (append_inj' (hsegments.symm.trans hsegments') rfl).1
  have hkey : t.keyOf p = dir ++ [s] := by rw [keyOf_concat hsegments hw, hs, move]
  cases hc : checkPath p with
  | error e => simp [write, lookupLast, hc, bind, Except.bind]
  | ok _ =>
    cases hl : checkLength p with
    | error e => simp [write, lookupLast, hc, hl, bind, Except.bind]
    | ok _ =>
      have hlast := lookupLast_concat (t := t) hsegments hne hc hl
      rw [walk_concat_here.2 ⟨hw, hd⟩, hs] at hlast
      rw [write, hlast, hkey]
      cases hn : checkName s with
      | error e => simp [hslash, hn, Except.map, bind, Except.bind]
      | ok _ =>
        simp only [hslash, hn, Except.map, bind, Except.bind, Bool.false_eq_true, if_false]
        split <;> rfl

/-- A file takes another's place and nothing else changes. -/
theorem place_of_isFile (hp : p.Named s) (h : t.isFile p = true) (content : List UInt8) :
    t.place p content = .ok (t.insert (t.keyOf p) (.file content false)) := by
  obtain ⟨ss, hsegments, hs⟩ := id hp
  obtain ⟨old, hr⟩ := isFile_iff.1 h
  obtain ⟨hr, x, hx⟩ := read_eq_ok.1 hr
  have hdir := makeDirectories_of_isDirectory (isDirectory_directory hsegments hs hr)
  obtain ⟨hc, hl, hw⟩ := resolve_eq_ok.1 hr
  rw [hsegments, map_append] at hw
  obtain ⟨d, hd, hn, hname⟩ := node?_of_walk_append hw
  rw [place_eq, hdir]
  simp [write_of_walk hp hsegments hd hn, hc, hl, checkName, Nat.not_lt.2 (hname s hs).1, hx, bind,
    Except.bind]

theorem Puts.isFile {content : List UInt8} {t' : FileTree} (h : Puts t k content t') {q : Path}
    (hq : t.isFile q = true) : t'.isFile q = true := by
  obtain ⟨f, hf⟩ := isFile_iff.1 hq
  by_cases hk : t.keyOf q = k
  · exact isFile_iff.2 ⟨content, h.read_of_eq hk (h.grows.resolve (read_eq_ok.1 hf).1)⟩
  · exact isFile_iff.2 ⟨f, h.read_of_ne hk hf⟩

theorem placeAll_of_isFile {fs : List (Path × List UInt8)}
    (hn : ∀ p ∈ fs.map Prod.fst, ∃ s, p.Named s)
    (hf : ∀ p ∈ fs.map Prod.fst, t.isFile p = true) : ∃ t', t.placeAll fs = .ok t' := by
  induction fs generalizing t with
  | nil => exact ⟨t, placeAll_nil.2 rfl⟩
  | cons f fs ih =>
    simp only [map_cons, forall_mem_cons] at hn hf
    obtain ⟨s, hs⟩ := hn.1
    have hp := place_of_isFile hs hf.1 f.2
    obtain ⟨t', ht'⟩ := ih hn.2 fun p hp' => (place_puts hp).1.isFile (hf.2 p hp')
    exact ⟨t', placeAll_cons.2 ⟨_, hp, ht'⟩⟩

end FileTree
end ShaderDialect
