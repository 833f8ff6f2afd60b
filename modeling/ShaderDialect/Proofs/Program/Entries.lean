import ShaderDialect.Proofs.Program.Grammar
import ShaderDialect.Selection

/-! Entry points and the markers before them: when an entry point is annotated by exactly the
markers that remain directly before it. -/
namespace ShaderDialect
open List

namespace Item
variable {defined : String → Bool}

theorem entriesList_eq_flatMap (is : List Item) :
    entriesList defined is = is.flatMap (entries defined) := by
  induction is with
  | nil => rfl
  | cons i is ih => rw [entriesList, ih, flatMap_cons]

mutual
theorem mem_entries_of_mem_select {e : EntryPoint} (i : Item) (h : .entry e ∈ i.select defined) :
    e ∈ i.entries defined := by
  cases i with
  | branch cond yes no loc =>
    by_cases hc : cond.eval defined
    · simp only [select, hc, if_true] at h
      simpa [entries, hc] using mem_entriesList_of_mem_selectList yes h
    · simp only [select, hc] at h
      simpa [entries, hc] using mem_entriesList_of_mem_selectList no h
  | _ => simp_all [select, entries]

theorem mem_entriesList_of_mem_selectList {e : EntryPoint} (is : List Item)
    (h : .entry e ∈ selectList defined is) : e ∈ entriesList defined is := by
  cases is with
  | nil => simp [selectList] at h
  | cons i is =>
    rw [selectList, mem_append] at h
    rw [entriesList, mem_append]
    rcases h with h | h
    · exact .inl (mem_entries_of_mem_select i h)
    · exact .inr (mem_entriesList_of_mem_selectList is h)
end

end Item

namespace Selection
variable {s' : Selection} {is : List Item} {scope : String} {defined : String → Bool}
  {s : Selection} {e : EntryPoint} {p : Program} {fileName : String} {outputs : List Output}
  {o : Output}

theorem mem_entries_add {i : Item} (h : s.add scope defined i = .ok s') (he : e ∈ s'.entries) :
    e ∈ s.entries ∨ ∃ e', i = .entry e' ∧
      e = { e' with function := e'.function.select defined } := by
  cases i with
  | entry e' =>
    simp only [add, Except.ok.injEq] at h
    subst h
    simpa using he
  | struct d =>
    simp only [add] at h
    split at h
    · simp at h
    · cases h
      exact .inl he
  | function f =>
    simp only [add] at h
    split at h
    · simp at h
    · cases h
      exact .inl he
  | table d =>
    simp only [add, Except.ok.injEq] at h
    subst h
    split at he <;> exact .inl he
  | global g | sharedSet d | branch cond yes no loc | block stage features name is loc =>
    cases h
    exact .inl he

theorem mem_entries_foldlM (h : is.foldlM (add scope defined) s = .ok s') (he : e ∈ s'.entries) :
    e ∈ s.entries ∨
      ∃ e', .entry e' ∈ is ∧ e = { e' with function := e'.function.select defined } := by
  induction is generalizing s with
  | nil =>
    obtain rfl : s = s' := by simpa using h
    exact .inl he
  | cons i is ih =>
    simp only [foldlM_cons, Success.bind_eq_ok] at h
    obtain ⟨s₁, hadd, hrest⟩ := h
    rcases ih hrest with hs₁ | ⟨e', he', heq⟩
    · rcases mem_entries_add hadd hs₁ with hs | ⟨e', rfl, heq⟩
      · exact .inl hs
      · exact .inr ⟨e', .head _, heq⟩
    · exact .inr ⟨e', .tail _ he', heq⟩

theorem block_of_mem_outputs (h : p.outputs fileName = .ok outputs) (ho : o ∈ outputs)
    (hblock : o.block = some is) :
    ∃ stage features name loc, Item.block stage features name is loc ∈ p.items := by
  have hmem (hb : o ∈ p.items.filterMap Program.blockOutput?) :
      ∃ stage features name loc, Item.block stage features name is loc ∈ p.items := by
    obtain ⟨i, hi, hout⟩ := mem_filterMap.1 hb
    cases i with
    | block stage features name items loc =>
      simp only [Program.blockOutput?, Option.some.injEq] at hout
      subst hout
      cases hblock
      exact ⟨_, _, _, _, hi⟩
    | _ => simp [Program.blockOutput?] at hout
  simp only [Program.outputs] at h
  split at h
  · simp at h
  · cases h
    exact hmem ho
  · cases h
    obtain rfl := mem_singleton.1 ho
    simp at hblock
  · cases h
    obtain ⟨stage, -, rfl⟩ := mem_map.1 ho
    simp at hblock

theorem mem_entriesList_of_mem_items (houtputs : p.outputs fileName = .ok outputs)
    (ho : o ∈ outputs) (he : e ∈ Item.entriesList defined (items p o)) :
    e ∈ Item.entriesList defined p.items := by
  rw [items, Item.entriesList_append, mem_append] at he
  simp only [Item.entriesList_eq_flatMap, mem_flatMap] at he ⊢
  rcases he with ⟨i, hi, he⟩ | ⟨i, hi, he⟩
  · exact ⟨i, (mem_filter.1 hi).1, he⟩
  · cases hblock : o.block with
    | none => simp [hblock] at hi
    | some is =>
      obtain ⟨stage, features, name, loc, hmem⟩ := block_of_mem_outputs houtputs ho hblock
      refine ⟨_, hmem, ?_⟩
      rw [Item.entries, Item.entriesList_eq_flatMap, mem_flatMap]
      exact ⟨i, by simpa [hblock] using hi, he⟩

/-- The entry points of an output are those of its program that remain for it. -/
theorem mem_entries_ofOutput {target : Target} (houtputs : p.outputs fileName = .ok outputs)
    (ho : o ∈ outputs) (h : ofOutput p o target = .ok s) (he : e ∈ s.entries) :
    ∃ e' ∈ Item.entriesList (o.defines target) p.items,
      e = { e' with function := e'.function.select (o.defines target) } := by
  simp only [ofOutput, Success.bind_eq_ok] at h
  obtain ⟨s₀, hfold, hs⟩ := h
  have he₀ : e ∈ s₀.entries := by
    split at hs
    · cases hs
      exact he
    · cases hs
      exact (mem_filter.1 he).1
  rcases mem_entries_foldlM hfold he₀ with hempty | ⟨e', he', heq⟩
  · simp [empty] at hempty
  · have hmem := Item.mem_entriesList_of_mem_selectList _ he'
    exact ⟨e', mem_entriesList_of_mem_items houtputs ho hmem, heq⟩

end Selection

namespace Reader
open Directive

/-- What a program says of the entry points that remain is what the markers directly before them
say, exactly if for each of them these say the same as all markers since the entry point before. -/
theorem read_entries_iff {file : String} {tokens : List Placed} {p : Program}
    (h : Program.read file tokens = .ok p) :
    (∀ fileName outputs o target s, p.outputs fileName = .ok outputs → o ∈ outputs →
      Selection.ofOutput p o target = .ok s → ∀ e ∈ s.entries,
        ∃ e' ∈ Item.entriesList (o.defines target) p.items,
          e = { e' with function := e'.function.select (o.defines target) }) ∧
    ∃ os c c', c.rest = tokens ∧ c'.rest = [] ∧ Outlines os c c' ∧ ∀ defined,
      (Alone tokens → resolve defined [] tokens =
        some ((Outline.remainingList defined os).flatMap (Element.kept defined))) ∧
      (Item.entriesList defined p.items =
          Element.entries [] (Outline.remainingList defined os) ↔
        ∀ o ∈ (Outline.occurrencesList defined true ⟨[], []⟩ os).1,
          EntryLabel.ofMarks o.waiting.written = EntryLabel.ofMarks o.waiting.direct) := by
  obtain ⟨fuel, c, q, c', rfl, hread⟩ := Program.exists_reads_items h
  obtain ⟨os, ms, hos, hitems, -⟩ := items_outlined hread [] rfl
  have hend : c'.rest = [] := head?_eq_none_iff.1 (items_stop hread).symm
  refine ⟨fun _ _ _ _ _ houtputs ho hs _ he =>
    Selection.mem_entries_ofOutput houtputs ho hs he, os, c, c', rfl, hend,
      hos, fun defined => ⟨?_, ?_⟩⟩
  · intro halone
    obtain ⟨ts, hts, hyields⟩ := hos.shows halone
    rw [hend, append_nil] at hts
    rw [hts]
    exact hyields.resolve_eq
  · have hiff := @Outline.entries_eq_iff defined os
    rwa [hitems] at hiff

/-- A marker outside of a block, and an entry point in it. -/
def markedBlock : List Placed :=
  [⟨.word "USE_SRT", ⟨"a.fsl", 1⟩⟩, ⟨.delim .lparen, ⟨"a.fsl", 1⟩⟩, ⟨.word "T", ⟨"a.fsl", 1⟩⟩,
    ⟨.delim .rparen, ⟨"a.fsl", 1⟩⟩, ⟨.directive "comp" "blur", ⟨"a.fsl", 2⟩⟩,
    ⟨.word "void", ⟨"a.fsl", 3⟩⟩, ⟨.word "CS_MAIN", ⟨"a.fsl", 3⟩⟩, ⟨.delim .lparen, ⟨"a.fsl", 3⟩⟩,
    ⟨.delim .rparen, ⟨"a.fsl", 3⟩⟩, ⟨.delim .lbrace, ⟨"a.fsl", 3⟩⟩, ⟨.delim .rbrace, ⟨"a.fsl", 3⟩⟩,
    ⟨.directive "end" "", ⟨"a.fsl", 4⟩⟩]

/-- The marker annotates the entry point in the block all the same. -/
theorem read_entries_iff_markedBlock : ∃ p, Program.read "a.fsl" markedBlock = .ok p ∧
    (Item.entriesList (fun _ => false) p.items).map EntryPoint.table = [some "T"] ∧
    ∃ os c c', c.rest = markedBlock ∧ c'.rest = [] ∧ Outlines os c c' ∧ ∀ defined,
      (Alone markedBlock → resolve defined [] markedBlock =
        some ((Outline.remainingList defined os).flatMap (Element.kept defined))) ∧
      (Item.entriesList defined p.items =
          Element.entries [] (Outline.remainingList defined os) ↔
        ∀ o ∈ (Outline.occurrencesList defined true ⟨[], []⟩ os).1,
          EntryLabel.ofMarks o.waiting.written = EntryLabel.ofMarks o.waiting.direct) := by
  have hread : Program.read "a.fsl" markedBlock =
      .ok ⟨[.block .compute .empty "blur" [.entry ⟨.compute,
        ⟨"CS_MAIN", .void, [], [], ⟨"a.fsl", 3⟩⟩, none, some "T", none⟩] ⟨"a.fsl", 2⟩]⟩ := rfl
  exact ⟨_, hread, rfl, (read_entries_iff hread).2⟩

end Reader
end ShaderDialect
