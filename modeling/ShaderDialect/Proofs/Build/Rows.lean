import ShaderDialect.Proofs.Bytes
import ShaderDialect.Proofs.FileTree.Placing
import ShaderDialect.Proofs.Json.Reading

/-! Rows of the build cache: a row that was recorded is read back as it is, in a file that no
artifact can be taken for, and a fingerprint that has not changed stands for files that have not
changed. -/
namespace ShaderDialect

open JsonTree List Success

namespace CacheRow
variable {p : Path} {r : CacheRow}

def textTree : Json → JsonTree
  | .str s => .str (JsonTree.raw s)
  | _ => .null

/-- The value of a row's field as it is read: a text, or a list of texts. -/
def fieldTree : Json → JsonTree
  | .arr vs => .arr (vs.map textTree)
  | v => textTree v

theorem reads_texts (indent : Nat) (ps : List Path) :
    JsonTree.Reads (Text.utf8 (Json.prettyAt indent (.arr (ps.map fun p => .str p.text))))
      (.arr ((ps.map fun p => Json.str p.text).map textTree)) := by
  refine reads_arr fun v hv => ?_
  obtain ⟨p, -, rfl⟩ := mem_map.1 hv
  exact reads_str _ _

theorem ofTree?_pretty (r : CacheRow) :
    (JsonTree.read? (Text.utf8 r.toJson.pretty)).bind ofTree? = some r := by
  have hread : JsonTree.Reads (Text.utf8 r.toJson.pretty) _ :=
    reads_obj (f := fieldTree) (by
      simp only [forall_mem_cons, not_mem_nil, false_implies, implies_true, and_true]
      exact ⟨reads_str _ _, reads_texts _ _, reads_str _ _,
        reads_str _ _, reads_texts _ _⟩)
  rw [read?_of_reads hread, Option.bind_some, ofTree?]
  simp [record?, keys, member?, fieldTree, textTree, text?,
    decode?_raw, texts?_map, Function.comp_def]

variable {t : FileTree}

theorem read?_of_read (h : t.read p = .ok (Text.utf8 r.toJson.pretty)) : read? t p = some r := by
  have ht : t.readText p = .ok r.toJson.pretty := by
    simp [FileTree.readText, h, Text.ofUtf8?_utf8, bind, Except.bind, pure, Except.pure]
  simp [read?, ht, Except.toOption, ofTree?_pretty]

theorem exists_read_of_read? (h : read? t p = some r) : ∃ bytes, t.read p = .ok bytes := by
  cases hr : t.read p with
  | error e => simp [read?, FileTree.readText, hr, bind, Except.bind, Except.toOption] at h
  | ok bytes => exact ⟨bytes, rfl⟩

end CacheRow

theorem Text.mem_hexDigits {c : Char} {width n : Nat} (h : c ∈ Text.hexDigits width n) :
    c ∈ "0123456789abcdef".toList := by
  have hall : ∀ k < 16, Nat.digitChar k ∈ "0123456789abcdef".toList := by decide
  induction width generalizing n with
  | zero => simp [Text.hexDigits] at h
  | succ width ih =>
    rw [Text.hexDigits, mem_append, mem_singleton] at h
    rcases h with h | rfl
    · exact ih h
    · exact hall (n % 16) (Nat.mod_lt n (by decide))

theorem Fingerprint.mem_ofText {c : Char} {text : String}
    (h : c ∈ (Fingerprint.ofText text).toList) : c ∈ "0123456789abcdef".toList := by
  rw [Fingerprint.ofText, Fingerprint.ofBytes, Text.hex, String.toList_ofList] at h
  exact Text.mem_hexDigits h

/-- What the names of the files end in that builds write besides rows. -/
def artifactEndings : List String :=
  [".hlsl", ".glsl", ".metal", ".meta.json", ".fslv", ".srt.json", ".srt.h"]

def Path.IsArtifact (p : Path) : Prop :=
  ∃ stem, ∃ ending ∈ artifactEndings, p.Named (stem ++ ending)

theorem Path.IsArtifact.named {p : Path} (h : p.IsArtifact) : ∃ s, p.Named s := by
  obtain ⟨stem, ending, -, hn⟩ := h
  exact ⟨_, hn⟩

namespace BuildCache
variable {p : Path} (input : Path)

def rowName (input : Path) : String := Fingerprint.ofText input.text ++ ".json"

theorem stepOf_rowName : FileTree.stepOf (rowName input) = .name (rowName input) := by
  refine FileTree.stepOf_of_length ?_
  have hl : ".json".length = 5 := by decide
  simp [rowName, String.length_append, hl]

theorem not_mem_rowName : '/' ∉ (rowName input).toList := by
  rw [rowName, String.toList_append, mem_append, not_or]
  refine ⟨fun h => ?_, by decide⟩
  have := Fingerprint.mem_ofText h
  revert this
  decide

theorem keyOf_rowPath (c : BuildCache) (t : FileTree) (input : Path) :
    t.keyOf (c.rowPath input) = t.keyOf c.dir ++ [rowName input] :=
  t.keyOf_joinName c.dir (not_mem_rowName input) (stepOf_rowName input)

theorem rowName_ne {stem ending : String} (h : ending ∈ artifactEndings) (input : Path) :
    stem ++ ending ≠ rowName input := by
  have hcases : ∀ e ∈ artifactEndings, e.toList.getLast? ∈ [some 'l', some 'v', some 'h'] ∨
      ∃ mid ∈ [".meta", ".srt"], e = mid ++ ".json" := by decide
  intro he
  rw [rowName, ← String.toList_inj, String.toList_append, String.toList_append] at he
  rcases hcases ending h with hl | ⟨mid, hmid, rfl⟩
  · have hlast := congrArg List.getLast? he
    rw [getLast?_append, getLast?_append] at hlast
    have hn : ".json".toList.getLast? = some 'n' := by decide
    rw [hn, Option.some_or] at hlast
    simp only [mem_cons, not_mem_nil, or_false] at hl
    rcases hl with hl | hl | hl <;> simp [hl] at hlast
  · rw [String.toList_append, ← append_assoc] at he
    have hhex := append_cancel_right he
    have ht : 't' ∈ mid.toList := by
      simp only [mem_cons, not_mem_nil, or_false] at hmid
      rcases hmid with rfl | rfl <;> decide
    have hmem : 't' ∈ "0123456789abcdef".toList :=
      Fingerprint.mem_ofText (hhex ▸ mem_append_right _ ht)
    revert hmem
    decide

theorem keyOf_ne_rowPath (h : p.IsArtifact) (c : BuildCache) (t : FileTree) (input : Path) :
    t.keyOf p ≠ t.keyOf (c.rowPath input) := by
  obtain ⟨stem, ending, hm, hn⟩ := h
  obtain ⟨k, hk⟩ := hn.keyOf t
  rw [hk, keyOf_rowPath]
  intro he
  have hlast := (append_inj' he (by simp)).2
  exact rowName_ne hm input (singleton_inj.1 hlast)

theorem isFresh_iff {c : BuildCache} {t : FileTree} {input : Path} {arguments : String} :
    c.isFresh t input arguments = true ↔ ∃ row, c.load t input = some row ∧
      row.arguments = arguments ∧ (∀ p ∈ row.outputs, t.pathExists p = true) ∧
      Fingerprint.ofFiles t row.dependencies = .ok row.fingerprint := by
  simp only [isFresh, Option.any_eq_true]
  refine exists_congr fun row => and_congr Iff.rfl ?_
  rw [CacheRow.holds]
  cases hf : Fingerprint.ofFiles t row.dependencies with
  | error e => simp
  | ok fingerprint => simp [and_assoc]

end BuildCache

namespace Fingerprint
variable {p : Path} {bytes : List UInt8} {t t' : FileTree} {ps : List Path}

theorem framed_append_inj {f f' bytes' : List UInt8} (hf : f.length < 256 ^ 8)
    (hf' : f'.length < 256 ^ 8) (h : framed p f ++ bytes = framed p f' ++ bytes') :
    f = f' ∧ bytes = bytes' := by
  simp only [framed, append_assoc] at h
  have h := append_cancel_left h
  obtain ⟨hlen, h⟩ := append_inj h (by simp)
  exact append_inj h (Bytes.ofNat_inj hf hf' hlen)

theorem stream_congr (h : ∀ p ∈ ps, t'.read p = t.read p) : stream t' ps = stream t ps := by
  induction ps with
  | nil => rfl
  | cons p ps ih =>
    rw [forall_mem_cons] at h
    rw [stream, stream, h.1, ih h.2]

theorem ofFiles_congr (h : ∀ p ∈ ps, t'.read p = t.read p) : ofFiles t' ps = ofFiles t ps := by
  rw [ofFiles, ofFiles, stream_congr h]

/-- Files that are hashed as the same bytes have the same contents; lengths fit into 64 bits. -/
theorem read_eq_of_stream_eq (hl : ∀ p ∈ ps, ∀ f, t.read p = .ok f → f.length < 256 ^ 8)
    (hl' : ∀ p ∈ ps, ∀ f, t'.read p = .ok f → f.length < 256 ^ 8) (h : stream t ps = .ok bytes)
    (h' : stream t' ps = .ok bytes) : ∀ p ∈ ps, ∃ f, t.read p = .ok f ∧ t'.read p = .ok f := by
  induction ps generalizing bytes with
  | nil => simp
  | cons p ps ih =>
    rw [forall_mem_cons] at hl hl'
    rw [stream] at h h'
    cases hr : t.read p with
    | error e => simp [hr] at h
    | ok f =>
      cases hr' : t'.read p with
      | error e => simp [hr'] at h'
      | ok f' =>
        simp only [hr, hr', map_eq_ok] at h h'
        obtain ⟨rest, hs, rfl⟩ := h
        obtain ⟨rest', hs', he⟩ := h'
        -- The path is the same, so the lengths stand in the same place, and then so do the
        -- contents.
        obtain ⟨rfl, rfl⟩ := framed_append_inj (hl'.1 f' hr') (hl.1 f hr) he
        rw [forall_mem_cons]
        exact ⟨⟨f', hr, hr'⟩, ih hl.2 hl'.2 hs hs'⟩

theorem length_le_of_stream (h : stream t ps = .ok bytes) :
    ∀ p ∈ ps, ∀ f, t.read p = .ok f → f.length ≤ bytes.length := by
  induction ps generalizing bytes with
  | nil => simp
  | cons p ps ih =>
    rw [stream] at h
    cases hr : t.read p with
    | error e => simp [hr] at h
    | ok f =>
      simp only [hr, map_eq_ok] at h
      obtain ⟨rest, hs, rfl⟩ := h
      rw [forall_mem_cons]
      simp only [framed, length_append]
      refine ⟨fun f' hf' => ?_, fun q hq f' hf' => ?_⟩
      · rw [Except.ok.inj (hf'.symm.trans hr)]
        omega
      · have := ih hs q hq f' hf'
        omega

theorem read_eq_of_stream (hl : bytes.length < 256 ^ 8) (h : stream t ps = .ok bytes)
    (h' : stream t' ps = .ok bytes) : ∀ p ∈ ps, ∃ f, t.read p = .ok f ∧ t'.read p = .ok f :=
  read_eq_of_stream_eq (fun p hp f hf => Nat.lt_of_le_of_lt (length_le_of_stream h p hp f hf) hl)
    (fun p hp f hf => Nat.lt_of_le_of_lt (length_le_of_stream h' p hp f hf) hl) h h'

end Fingerprint
end ShaderDialect
