import ShaderDialect.Proofs.Program.Structs
import ShaderDialect.Proofs.ResourceTable.Tables
import ShaderDialect.Proofs.Source.Loading
import ShaderDialect.Proofs.Token.Printing
import ShaderDialect.ShaderFile

/-! The names of tables are words of the files that they are read from, and so the files that
describe them have plain names. -/
namespace ShaderDialect

open Success

theorem Scan.isWordRest_of_word {cs a b : List Char} (h : word cs = some (a, b)) :
    ∀ c ∈ a, isWordRest c = true := by
  cases cs with
  | nil => cases h
  | cons d ds =>
    by_cases hd : isWordStart d = true
    · have hrest : isWordRest d = true := by
        simp only [isWordStart, isWordRest, Char.isAlphanum, Bool.or_eq_true] at hd ⊢
        exact hd.imp .inl id
      simp only [word, Recognizer.seq, Recognizer.one, hd, if_true, Recognizer.run,
        Option.some.injEq, Prod.mk.injEq] at h
      obtain ⟨rfl, -⟩ := h
      intro c hc
      rcases List.mem_cons.1 hc with rfl | hc
      · exact hrest
      · exact List.mem_takeWhile_imp hc
    · simp [word, Recognizer.seq, Recognizer.one, hd] at h

theorem Scan.isWordRest_of_scanned {name : String} (h : Scanned (.word name)) :
    ∀ c ∈ name.toList, isWordRest c = true := by
  cases h with
  | @other _ d ds _ _ htoken =>
    unfold token at htoken
    split at htoken
    · cases htoken
    split at htoken
    · cases htoken
    split at htoken
    · cases htoken
    split at htoken
    · next a rest hword =>
      obtain ⟨rfl, -⟩ : String.ofList a = name ∧ rest = [] := by simpa using htoken
      rw [String.toList_ofList]
      exact isWordRest_of_word hword
    split at htoken
    · cases htoken
    split at htoken <;> cases htoken

namespace Reader
variable {c c' : Cursor}

theorem word_of_table {d : TableDecl} (h : Reads table c d c') :
    ∃ loc, ⟨.word d.name, loc⟩ ∈ c.rest := by
  simp only [table, reads_bind] at h
  obtain ⟨⟨loc, args⟩, c₁, hmarker, _, c₂, -, name, c₃, hname, sets, c₄, -, hpure⟩ := h
  obtain ⟨rfl, -⟩ := reads_pure.1 hpure
  unfold wordArgument at hname
  split at hname
  · next name' loc' hget =>
    obtain ⟨rfl, -⟩ := reads_pure.1 hname
    obtain ⟨_, us, hrest, -, hargs⟩ := reads_marker hmarker
    have hmem := hargs _ (List.mem_of_getElem? hget) List.mem_cons_self
    exact ⟨loc', by simp [hrest, hmem]⟩
  · simp at hname

end Reader

/-- The names of tables are among the words of the tokens, whatever branch or block they stand
in. -/
theorem Program.word_of_read {file : String} {tokens : List Placed} {p : Program}
    (h : Program.read file tokens = .ok p) (d : TableDecl) (hd : .table d ∈ p.allItems) :
    ∃ loc, ⟨.word d.name, loc⟩ ∈ tokens := by
  refine forall_allItems (P := fun i => ∀ d, i = .table d → ∃ loc, ⟨.word d.name, loc⟩ ∈ tokens)
    (fun hc hread d hd => ?_) (by simp) (by simp) (by simp) h _ hd d rfl
  cases hread with
  | table htable =>
    obtain rfl : _ = d := by simpa [Declaration.item] using hd
    obtain ⟨loc, hloc⟩ := Reader.word_of_table htable
    exact ⟨loc, hc.subset hloc⟩
  | _ => simp [Declaration.item] at hd

section Loading
variable {t : FileTree} {paths : List Path} {input : Path}

theorem Source.exists_lexeme {source : Source} (h : Source.load t paths input = .ok source)
    {token : Placed} (htoken : token ∈ source.tokens) :
    ∃ text ls, tokenize text = .ok ls ∧ ⟨token.token, token.loc.line⟩ ∈ ls := by
  rcases Reading.load_ends t paths input with
    ⟨e, he, -⟩ | ⟨src, r, s, hsrc, hends, hshows, htokens, -⟩
  · cases he.symm.trans h
  · obtain rfl : source = src := Except.ok.inj (h.symm.trans hsrc)
    obtain ⟨root, -, hsound⟩ := hends.sound
    rw [htokens, hshows.tokens] at htoken
    obtain ⟨file, -, -, text, ls, -, hls, hmem⟩ := hsound.tokens token htoken
    exact ⟨text, ls, hls, hmem⟩

theorem ShaderFile.isWordRest_tableName {f : ShaderFile}
    (h : ShaderFile.load t paths input = .ok f) :
    ∀ table ∈ f.tables.tables, ∀ c ∈ table.name.toList, Scan.isWordRest c = true := by
  simp only [load, ofSource, bind_eq_ok, pure_eq_ok] at h
  obtain ⟨source, hsource, program, hprogram, tables, htables, rfl⟩ := h
  intro table htable
  -- The table is declared by one of the items, and its name is a token of the source.
  obtain ⟨d, hd, rfl⟩ := Program.resolveTables_eq_ok htables
  obtain ⟨decl, hdecl, hresolve⟩ := (ResourceTables.mem_tables hd.tables.nodup).1 htable
  rw [(TableDecl.resolve_eq_ok.1 hresolve).1]
  have hitem := Program.mem_table?.1 (hd.tables.seen_of_kept _ hdecl)
  obtain ⟨loc, hword⟩ := Program.word_of_read hprogram decl hitem
  obtain ⟨text, ls, hls, hmem⟩ := Source.exists_lexeme hsource hword
  exact Scan.isWordRest_of_scanned (Scan.lexemes_scanned hls _ hmem)

end Loading
end ShaderDialect
