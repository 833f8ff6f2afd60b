import Mathlib.Data.List.DropRight
import ShaderDialect.Proofs.Path.Order

/-! Files in the folders that their names lead to. A name that is joined to a directory is cut
behind its last slash: what stands before tells the folder, and what stands behind the file in
it. -/
namespace ShaderDialect
open List

namespace Path

def folder (name : String) : String := String.ofList (name.toList.rdropWhile (· != '/'))

def base (name : String) : String := String.ofList (name.toList.rtakeWhile (· != '/'))

variable {name ending : String}

theorem folder_append_base (name : String) : folder name ++ base name = name := by
  rw [← String.toList_inj, String.toList_append, folder, base, String.toList_ofList,
    String.toList_ofList]
  exact rdropWhile_append_rtakeWhile

theorem slash_not_mem_base (name : String) : '/' ∉ (base name).toList := by
  intro h
  rw [base, String.toList_ofList] at h
  have := mem_rtakeWhile_imp h
  simp at this

theorem folder_cases (name : String) : folder name = "" ∨ ∃ s, folder name = s ++ "/" := by
  rcases eq_nil_or_concat (name.toList.rdropWhile (· != '/')) with hnil | ⟨cs, c, hc⟩
  · left
    rw [folder, hnil]
  · right
    rw [concat_eq_append] at hc
    have hlast := rdropWhile_last_not (· != '/') name.toList (by rw [hc]; simp)
    simp only [hc, getLast_append_singleton, bne_iff_ne, ne_eq, not_not] at hlast
    refine ⟨String.ofList cs, ?_⟩
    rw [← String.toList_inj, folder, hc, hlast]
    simp

theorem rdropWhile_append_of_pos {p : Char → Bool} {cs ds : List Char} (h : ∀ c ∈ ds, p c) :
    (cs ++ ds).rdropWhile p = cs.rdropWhile p ∧
    (cs ++ ds).rtakeWhile p = cs.rtakeWhile p ++ ds := by
  have hreverse : ∀ c ∈ ds.reverse, p c := by simpa using h
  simp [List.rdropWhile, List.rtakeWhile, dropWhile_append_of_pos hreverse,
    takeWhile_append_of_pos hreverse]

theorem folder_append (h : '/' ∉ ending.toList) : folder (name ++ ending) = folder name := by
  have hpos : ∀ c ∈ ending.toList, (c != '/') = true := by
    intro c hc
    simpa using ne_of_mem_of_not_mem hc h
  rw [folder, String.toList_append, (rdropWhile_append_of_pos hpos).1, folder]

theorem base_append (h : '/' ∉ ending.toList) : base (name ++ ending) = base name ++ ending := by
  have hpos : ∀ c ∈ ending.toList, (c != '/') = true := by
    intro c hc
    simpa using ne_of_mem_of_not_mem hc h
  rw [base, String.toList_append, (rdropWhile_append_of_pos hpos).2, base]
  simp

theorem folder_of_not_mem (h : '/' ∉ name.toList) : folder name = "" := by
  have hempty : folder ("" ++ name) = folder "" := folder_append h
  rwa [String.empty_append] at hempty

theorem base_of_not_mem (h : '/' ∉ name.toList) : base name = name := by
  have hempty : base ("" ++ name) = base "" ++ name := base_append h
  have hbase : base "" = "" := rfl
  simpa [hbase] using hempty

theorem components_file {text file : String} (htext : text = "" ∨ ∃ s, text = s ++ "/")
    (hslash : '/' ∉ file.toList) (hfile : 3 ≤ file.length) :
    components ⟨text ++ file⟩ = components ⟨text⟩ ++ [.name file] := by
  have hne : ∀ s : String, s.length < 3 → file ≠ s := by
    rintro s hs rfl
    omega
  have hcomponent : component? file = some (.name file) := by
    unfold component?
    split
    · exact absurd rfl (hne "" (by decide))
    · exact absurd rfl (hne "." (by decide))
    · exact absurd rfl (hne ".." (by decide))
    · rfl
  have hempty : segments ⟨""⟩ = [""] := by decide
  have hnone : component? "" = none := rfl
  rcases htext with rfl | ⟨s, rfl⟩
  · rw [String.empty_append, components, segments_of_not_mem hslash]
    simp only [isAbsolute_of_not_mem hslash, Bool.false_eq_true, if_false,
      if_neg (hne "." (by decide)), hcomponent]
    rfl
  · have habsolute : isAbsolute ⟨s ++ "/" ++ file⟩ = isAbsolute ⟨s ++ "/"⟩ := by
      simp only [isAbsolute, String.toList_append]
      cases s.toList <;> rfl
    have hsegments : segments ⟨s ++ "/"⟩ = segments ⟨s⟩ ++ [""] := by
      rw [← hempty, ← segments_append_slash, String.append_empty]
    rw [components, components, segments_append_slash, segments_of_not_mem hslash, hsegments,
      habsolute]
    cases hs : segments ⟨s⟩ with
    | nil => exact absurd hs (segments_ne_nil _)
    | cons first rest => simp [hcomponent, hnone]

theorem text_joinName (dir : Path) {folder file : String}
    (hfolder : folder = "" ∨ ∃ s, folder = s ++ "/") (hslash : '/' ∉ file.toList) :
    (dir.joinName (folder ++ file)).text = (dir.joinName folder).text ++ file ∧
      ((dir.joinName folder).text = "" ∨ ∃ s, (dir.joinName folder).text = s ++ "/") := by
  have habsolute : isAbsolute ⟨folder ++ file⟩ = isAbsolute ⟨folder⟩ := by
    rcases hfolder with rfl | ⟨s, rfl⟩
    · rw [String.empty_append, isAbsolute_of_not_mem hslash]
      rfl
    · simp only [isAbsolute, String.toList_append]
      cases s.toList <;> rfl
  simp only [joinName, join, habsolute]
  split
  · exact ⟨rfl, hfolder⟩
  split
  · next hempty hslash =>
    refine ⟨(String.append_assoc).symm, .inr ?_⟩
    rcases hfolder with rfl | ⟨s, rfl⟩
    · simp only [endsInSlash, beq_iff_eq] at hslash
      obtain ⟨cs, hcs⟩ := getLast?_eq_some_iff.1 hslash
      exact ⟨String.ofList cs, by simp [← String.toList_inj, hcs]⟩
    · exact ⟨dir.text ++ s, (String.append_assoc).symm⟩
  · refine ⟨(String.append_assoc).symm, .inr ?_⟩
    rcases hfolder with rfl | ⟨s, rfl⟩
    · exact ⟨dir.text, by simp⟩
    · exact ⟨dir.text ++ "/" ++ s, (String.append_assoc).symm⟩

/-- A view of paths in which a file is seen as its folder and its name. -/
structure ShowsFiles {α : Type} (view : Path → List α) (ofName : String → α) : Prop where
  injective : Function.Injective ofName
  file : ∀ (dir : Path) (name : String) {ending : String}, '/' ∉ ending.toList → 3 ≤ ending.length →
    view (dir.joinName (name ++ ending)) =
      view (dir.joinName (folder name)) ++ [ofName (base name ++ ending)]

theorem showsFiles_components : ShowsFiles components .name := by
  refine ⟨fun _ _ h => Component.name.inj h, fun dir name ending hslash hending => ?_⟩
  have hfile : '/' ∉ (base name ++ ending).toList := by
    simp [slash_not_mem_base name, hslash]
  obtain ⟨htext, hfolder⟩ := text_joinName dir (folder_cases name) hfile
  rw [← String.append_assoc, folder_append_base] at htext
  have hcomponents := components_file hfolder hfile (by rw [String.length_append]; omega)
  have hpath : ∀ p : Path, (⟨p.text⟩ : Path) = p := fun _ => rfl
  rwa [← htext, hpath, hpath] at hcomponents

theorem showsFiles_keyOf (t : FileTree) : ShowsFiles t.keyOf id := by
  refine ⟨fun _ _ h => h, fun dir name ending hslash hending => ?_⟩
  rw [FileTree.keyOf_eq_foldl, showsFiles_components.file dir name hslash hending,
    foldl_append, FileTree.keyOf_eq_foldl]
  rfl

theorem ShowsFiles.eq_iff {α : Type} {view : Path → List α} {ofName : String → α}
    (h : ShowsFiles view ofName) (dir : Path) {name name' ending ending' : String}
    (hending : '/' ∉ ending.toList ∧ 3 ≤ ending.length)
    (hending' : '/' ∉ ending'.toList ∧ 3 ≤ ending'.length) :
    view (dir.joinName (name ++ ending)) = view (dir.joinName (name' ++ ending')) ↔
      view (dir.joinName (folder name)) = view (dir.joinName (folder name')) ∧
        base name ++ ending = base name' ++ ending' := by
  rw [h.file dir name hending.1 hending.2, h.file dir name' hending'.1 hending'.2,
    ← h.injective.eq_iff]
  constructor
  · intro heq
    obtain ⟨hfolder, hname⟩ := append_inj' heq rfl
    exact ⟨hfolder, singleton_inj.1 hname⟩
  · rintro ⟨hfolder, hname⟩
    rw [hfolder, hname]

end Path
end ShaderDialect
