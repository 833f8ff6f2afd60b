import Mathlib.Data.List.Induction
import Mathlib.Data.List.Nodup
import ShaderDialect.Proofs.VariantContainer.Encoding

/-! Containers after any history of insertions, of which some may have failed. Of each target and
features the first variant of the history is held, whatever comes after it. So the order of the
history matters only among variants of the same target and features, and otherwise not even for the
bytes. -/
namespace ShaderDialect
open List

section Keys
variable {t t' : Target} {f f' : FeatureSet}

theorem variantKey_lt_iff : variantKey t f < variantKey t' f' ↔
    Prod.Lex (· < ·) (· < ·) (t.code, f.toNat) (t'.code, f'.toNat) := by
  have hf : f.toNat < 64 := f.bits.isLt
  have hf' : f'.toNat < 64 := f'.bits.isLt
  rw [Prod.lex_def, variantKey, variantKey]
  simp only
  omega

theorem variantKey_eq_iff : variantKey t f = variantKey t' f' ↔ t = t' ∧ f = f' := by
  constructor
  · intro h
    have hf : f.toNat < 64 := f.bits.isLt
    have hf' : f'.toNat < 64 := f'.bits.isLt
    rw [variantKey, variantKey] at h
    have hcode : t.code = t'.code := by omega
    have hbits : f.toNat = f'.toNat := by omega
    have htarget := (Target.ofCode?_eq_some.2 rfl).symm.trans (Target.ofCode?_eq_some.2 hcode)
    have hfeatures :=
      (FeatureSet.ofNat?_eq_some.2 rfl).symm.trans (FeatureSet.ofNat?_eq_some.2 hbits)
    exact ⟨Option.some.inj htarget, Option.some.inj hfeatures⟩
  · rintro ⟨rfl, rfl⟩
    rfl

end Keys

namespace Variant
variable {target : Target} {features : FeatureSet}

/-- The variant is for exactly this target and these features. -/
def IsFor (v : Variant) (target : Target) (features : FeatureSet) : Prop :=
  v.target = target ∧ v.features = features

instance (v : Variant) (target : Target) (features : FeatureSet) :
    Decidable (v.IsFor target features) := inferInstanceAs (Decidable (_ ∧ _))

variable {v : Variant}

theorem key_eq_key {w : Variant} : v.key = w.key ↔ v.IsFor w.target w.features := variantKey_eq_iff

end Variant

namespace VariantContainer
variable {target : Target} {features : FeatureSet}

/-- The container after an insertion, whether it has failed or not. -/
def put (c : VariantContainer) (v : Variant) : VariantContainer := ((add v).run.run c).2

/-- The container after a history of insertions into an empty one. -/
def ofHistory (history : List Variant) : VariantContainer := history.foldl put empty

theorem ofHistory_concat (history : List Variant) (v : Variant) :
    ofHistory (history ++ [v]) = (ofHistory history).put v := by
  simp [ofHistory]

section Steps
variable {c d : VariantContainer} {v w : Variant} {fault : ContainerFault} {history : List Variant}

theorem run_add_eq_ok : (add v).run.run c = (.ok (), d) ↔ c.with? v = some d := by
  rw [run_add]
  cases c.with? v with
  | none => exact ⟨(nomatch ·), (nomatch ·)⟩
  | some e => exact ⟨fun h => by cases h; rfl, fun h => by cases h; rfl⟩

theorem run_add_eq_error : (add v).run.run c = (.error fault, d) ↔
    fault = .duplicate v.target v.features ∧ d = c ∧ ∃ w ∈ c.variants, w.key = v.key := by
  rw [← mem_map, ← with?_eq_none, run_add]
  cases c.with? v with
  | none =>
    constructor
    · intro h
      cases h
      exact ⟨rfl, rfl, rfl⟩
    · rintro ⟨rfl, rfl, -⟩
      rfl
  | some e =>
    constructor
    · intro h
      cases h
    · rintro ⟨-, -, h⟩
      cases h

/-- The variant is the first of its key in the history. -/
def IsFirst (history : List Variant) (v : Variant) : Prop :=
  history.find? (·.key == v.key) = some v

theorem isFirst_iff : IsFirst history v ↔
    ∃ before after, history = before ++ v :: after ∧ ∀ w ∈ before,
      ¬ w.IsFor v.target v.features := by
  rw [IsFirst, find?_eq_some_iff_append]
  simp only [beq_self_eq_true, true_and, Bool.not_eq_true', beq_eq_false_iff_ne, ne_eq,
    Variant.key_eq_key]

theorem exists_isFirst (hw : w ∈ history) : ∃ v, IsFirst history v ∧ v.key = w.key := by
  cases hfind : history.find? (·.key == w.key) with
  | none => exact absurd (beq_self_eq_true w.key) (find?_eq_none.1 hfind w hw)
  | some v =>
    have hkey : v.key = w.key := by simpa using find?_some hfind
    exact ⟨v, by rw [IsFirst, hkey, hfind], hkey⟩

theorem IsFirst.mem (h : IsFirst history v) : v ∈ history := mem_of_find?_eq_some h

/-- What comes last is the first of its key only if no other variant has the key. -/
theorem isFirst_concat : IsFirst (history ++ [v]) w ↔
    IsFirst history w ∨ w = v ∧ ∀ u ∈ history, u.key ≠ v.key := by
  rw [IsFirst, find?_append, Option.or_eq_some_iff]
  refine or_congr Iff.rfl ?_
  simp only [find?_eq_none, find?_singleton, beq_iff_eq]
  constructor
  · rintro ⟨hnone, hsome⟩
    split at hsome
    · cases hsome
      exact ⟨rfl, hnone⟩
    · cases hsome
  · rintro ⟨rfl, hnone⟩
    exact ⟨hnone, if_pos rfl⟩

/-- The container holds the first variant of every key of the history, and nothing else. -/
def HoldsFirsts (c : VariantContainer) (history : List Variant) : Prop :=
  ∀ v, v ∈ c.variants ↔ IsFirst history v

theorem HoldsFirsts.exists_key_iff (h : c.HoldsFirsts history) {k : Nat} :
    (∃ w ∈ c.variants, w.key = k) ↔ ∃ w ∈ history, w.key = k := by
  constructor
  · rintro ⟨w, hw, hk⟩
    exact ⟨w, ((h w).1 hw).mem, hk⟩
  · rintro ⟨w, hw, rfl⟩
    obtain ⟨v, hv, hkey⟩ := exists_isFirst hw
    exact ⟨v, (h v).2 hv, hkey⟩

theorem holdsFirsts_put (h : c.HoldsFirsts history) : (c.put v).HoldsFirsts (history ++ [v]) := by
  intro w
  rw [isFirst_concat, ← h w, put, run_add]
  cases hwith : c.with? v with
  | some d =>
    have hnew : ∀ u ∈ history, u.key ≠ v.key := by
      intro u hu hkey
      have hnone := with?_eq_none.2 (mem_map.2 (h.exists_key_iff.2 ⟨u, hu, hkey⟩))
      cases hwith.symm.trans hnone
    rw [Option.elim_some, (with?_eq_some.1 hwith).mem_iff, mem_cons, or_comm]
    simp only [and_iff_left hnew]
  | none =>
    obtain ⟨u, hu, hkey⟩ := h.exists_key_iff.1 (mem_map.1 (with?_eq_none.1 hwith))
    refine ⟨.inl, ?_⟩
    rintro (hw | ⟨-, hnone⟩)
    · exact hw
    · exact absurd hkey (hnone u hu)

end Steps

theorem holdsFirsts_ofHistory (history : List Variant) :
    (ofHistory history).HoldsFirsts history := by
  induction history using List.reverseRecOn with
  | nil =>
    intro v
    simp [ofHistory, empty, IsFirst]
  | append_singleton history v ih =>
    rw [ofHistory_concat]
    exact holdsFirsts_put ih

section Histories
variable {c : VariantContainer} {history history' : List Variant} {v : Variant}

theorem run_add_ofHistory_eq_error {fault : ContainerFault} :
    (add v).run.run (ofHistory history) = (.error fault, c) ↔
      fault = .duplicate v.target v.features ∧ c = ofHistory history ∧
        ∃ w ∈ history, w.IsFor v.target v.features := by
  rw [run_add_eq_error, (holdsFirsts_ofHistory history).exists_key_iff]
  simp only [Variant.key_eq_key]

theorem exists_run_add_ofHistory (h : ∀ w ∈ history, ¬ w.IsFor v.target v.features) :
    ∃ c, (add v).run.run (ofHistory history) = (.ok (), c) := by
  simp only [run_add_eq_ok, ← Option.ne_none_iff_exists', ne_eq, with?_eq_none, mem_map]
  intro hmem
  obtain ⟨w, hw, hkey⟩ := (holdsFirsts_ofHistory history).exists_key_iff.1 hmem
  exact h w hw (Variant.key_eq_key.1 hkey)

theorem lookup_of_mem (hv : v ∈ c.variants) : c.lookup v.target v.features = .ok v.bytes := by
  obtain ⟨w, hw, hkey⟩ := exists_isFirst hv
  obtain rfl := inj_on_of_nodup_map c.nodup_keys hw.mem hv hkey
  rw [lookup, ← Variant.key, hw]

theorem lookup_of_forall_not (h : ∀ v ∈ c.variants, ¬ v.IsFor target features) :
    c.lookup target features = .error (.noMatchingVariant target features) := by
  have hnone : c.variants.find? (·.key == variantKey target features) = none := by
    simpa [Variant.key, variantKey_eq_iff, Variant.IsFor] using h
  rw [lookup, hnone]

theorem perm_ofHistory (hnodup : (history.map fun v => (v.target, v.features)).Nodup) :
    (ofHistory history).variants.Perm history := by
  have hheld : (ofHistory history).variants.Nodup := List.Nodup.of_map _ (nodup_keys _)
  refine (perm_ext_iff_of_nodup hheld (List.Nodup.of_map _ hnodup)).2 fun v => ?_
  rw [holdsFirsts_ofHistory history v]
  refine ⟨IsFirst.mem, fun hv => ?_⟩
  obtain ⟨w, hw, hkey⟩ := exists_isFirst hv
  have hsame : (w.target, w.features) = (v.target, v.features) :=
    Prod.ext_iff.2 (Variant.key_eq_key.1 hkey)
  rwa [← inj_on_of_nodup_map hnodup hw.mem hv hsame]

theorem ofHistory_eq_of_perm (hperm : history.Perm history')
    (hnodup : (history.map fun v => (v.target, v.features)).Nodup) :
    ofHistory history = ofHistory history' := by
  have hnodup' := (hperm.map fun v : Variant => (v.target, v.features)).nodup_iff.1 hnodup
  exact eq_of_perm ((perm_ofHistory hnodup).trans (hperm.trans (perm_ofHistory hnodup').symm))

end Histories

/-- The directory of some bytes lists these codes of targets and bits of features, in this order. -/
structure ListsKeys (data : List UInt8) (keys : List (Nat × Nat)) : Prop where
  count : Bytes.read? 4 data 8 = some keys.length
  key : ∀ i code bits, keys[i]? = some (code, bits) →
    Bytes.read? 4 data (headLength + entryLength * i) = some code ∧
      Bytes.read? 8 data (headLength + entryLength * i + 4) = some bits

/-- An entry of the directory starts with the target and the features, however long the bytes
are. -/
theorem listsKeys_toBytes (c : VariantContainer) :
    ListsKeys c.toBytes (c.variants.map fun v => (v.target.code, v.features.toNat)) := by
  refine ⟨by rw [length_map, read?_count], fun i code bits hi => ?_⟩
  rw [getElem?_map, Option.map_eq_some_iff] at hi
  obtain ⟨v, hv, he⟩ := hi
  cases he
  obtain ⟨vs, ws, hvs, rfl⟩ : ∃ vs ws, c.variants = vs ++ v :: ws ∧ vs.length = i := by
    obtain ⟨hlt, rfl⟩ := List.getElem?_eq_some_iff.1 hv
    refine ⟨c.variants.take i, c.variants.drop (i + 1), by simp, ?_⟩
    rw [length_take]
    omega
  have hcode : v.target.code < 256 ^ 4 := by cases v.target <;> decide
  have hbits : v.features.toNat < 256 ^ 8 := Nat.lt_trans v.features.bits.isLt (by decide)
  obtain ⟨front, back, hdata, hlen⟩ : ∃ front back,
      c.toBytes = front ++
        (Bytes.ofNat 4 v.target.code ++ (Bytes.ofNat 8 v.features.toNat ++ back)) ∧
        headLength + entryLength * vs.length = front.length := by
    have hfront :
        headLength + entryLength * vs.length = (c.head ++ directory c.start vs).length := by
      simp [length_head]
    rw [toBytes_eq]
    nth_rewrite 1 [hvs]
    rw [directory_append, directory]
    simp only [append_assoc]
    exact ⟨_, _, (append_assoc _ _ _).symm, hfront⟩
  rw [hdata, hlen]
  constructor
  · rw [← Nat.add_zero front.length, Bytes.read?_append_left]
    exact Bytes.read?_ofNat _ hcode
  · rw [Bytes.read?_append_left]
    exact (Bytes.read?_skip 4 _ _ 0).trans (Bytes.read?_ofNat _ hbits)

/-- After any history of insertions into an empty container, an insertion fails exactly if an
earlier one with the same target and features has succeeded, and then nothing changes. What is found
is the first variant that was inserted for exactly the target and the features. Insertions for
different targets or features give the same bytes in any order, with a directory of all of them that
is strictly sorted. -/
theorem ofHistory_keeps_firsts :
    (∀ (history : List Variant) (v : Variant),
      (∃ fault c, (add v).run.run (ofHistory history) = (.error fault, c)) ↔
        ∃ before w after, history = before ++ w :: after ∧ w.IsFor v.target v.features ∧
          ∃ c, (add w).run.run (ofHistory before) = (.ok (), c)) ∧
    (∀ (history : List Variant) (v : Variant) (fault : ContainerFault) (c : VariantContainer),
      (add v).run.run (ofHistory history) = (.error fault, c) →
        c = ofHistory history ∧ ofHistory (history ++ [v]) = ofHistory history) ∧
    (∀ (before : List Variant) (v : Variant) (after : List Variant),
      (∀ w ∈ before, ¬ w.IsFor v.target v.features) →
        (ofHistory (before ++ v :: after)).lookup v.target v.features = .ok v.bytes) ∧
    (∀ (history : List Variant) (target : Target) (features : FeatureSet),
      (∀ w ∈ history, ¬ w.IsFor target features) →
        (ofHistory history).lookup target features =
          .error (.noMatchingVariant target features)) ∧
    ∀ history history' : List Variant, history.Perm history' →
      (history.map fun v => (v.target, v.features)).Nodup →
        (ofHistory history).toBytes = (ofHistory history').toBytes ∧
        ∃ keys, ListsKeys (ofHistory history).toBytes keys ∧
          keys.Perm (history.map fun v => (v.target.code, v.features.toNat)) ∧
          keys.Pairwise (Prod.Lex (· < ·) (· < ·)) := by
  refine ⟨fun history v => ?_, fun history v fault c h => ?_, fun before v after hnone => ?_,
    fun history target features hnone => ?_, fun history history' hperm hnodup => ?_⟩
  · constructor
    · rintro ⟨fault, c, h⟩
      obtain ⟨-, -, u, hu, hkey⟩ := run_add_ofHistory_eq_error.1 h
      -- Of the variants for the same target and features it was the first that succeeded.
      obtain ⟨w, hw, hwu⟩ := exists_isFirst hu
      obtain ⟨before, after, rfl, hnone⟩ := isFirst_iff.1 hw
      refine ⟨before, w, after, rfl, ?_, exists_run_add_ofHistory hnone⟩
      exact Variant.key_eq_key.1 (hwu.trans (Variant.key_eq_key.2 hkey))
    · rintro ⟨before, w, after, rfl, hkey, -⟩
      exact ⟨_, _, run_add_ofHistory_eq_error.2 ⟨rfl, rfl, w, by simp, hkey⟩⟩
  · obtain ⟨-, rfl, -⟩ := run_add_ofHistory_eq_error.1 h
    exact ⟨rfl, by rw [ofHistory_concat, put, h]⟩
  · exact lookup_of_mem ((holdsFirsts_ofHistory _ v).2 (isFirst_iff.2 ⟨before, after, rfl, hnone⟩))
  · refine lookup_of_forall_not fun v hv => hnone v ?_
    exact ((holdsFirsts_ofHistory history v).1 hv).mem
  · rw [ofHistory_eq_of_perm hperm hnodup]
    refine ⟨rfl, _, listsKeys_toBytes _, ?_, ?_⟩
    · exact (ofHistory_eq_of_perm hperm hnodup ▸ perm_ofHistory hnodup).map _
    · exact pairwise_map.2 ((ofHistory history').sorted.imp variantKey_lt_iff.1)

/-- A variant with a feature, and one with more features for a target that comes before. -/
def twoInsertions : List Variant :=
  [⟨.vulkan, .ofList [.vrs], [1]⟩, ⟨.direct3d12, .ofList [.vrs, .icb], [2, 3]⟩]

/-- The first variant is inserted again with other bytes, and looked up with fewer and with more
features; then the two are inserted in the other order. -/
theorem ofHistory_keeps_firsts_twoInsertions :
    (∃ fault c, (add ⟨.vulkan, .ofList [.vrs], [4]⟩).run.run (ofHistory twoInsertions) =
        (.error fault, c) ∧ c = ofHistory twoInsertions ∧
      ofHistory (twoInsertions ++ [⟨.vulkan, .ofList [.vrs], [4]⟩]) = ofHistory twoInsertions) ∧
    (ofHistory (twoInsertions ++ [⟨.vulkan, .ofList [.vrs], [4]⟩])).lookup .vulkan
      (.ofList [.vrs]) = .ok [1] ∧
    (ofHistory twoInsertions).lookup .vulkan .empty = .error (.noMatchingVariant .vulkan .empty) ∧
    (ofHistory twoInsertions).lookup .vulkan (.ofList [.vrs, .icb]) =
      .error (.noMatchingVariant .vulkan (.ofList [.vrs, .icb])) ∧
    (ofHistory twoInsertions).toBytes = (ofHistory twoInsertions.reverse).toBytes ∧
    ∃ keys, ListsKeys (ofHistory twoInsertions).toBytes keys ∧ keys.Perm [(2, 8), (1, 24)] ∧
      keys.Pairwise (Prod.Lex (· < ·) (· < ·)) := by
  obtain ⟨hfails, hkeeps, hfinds, hmisses, hperm⟩ := ofHistory_keeps_firsts
  obtain ⟨fault, c, hfault⟩ := (hfails twoInsertions ⟨.vulkan, .ofList [.vrs], [4]⟩).2
    ⟨[], _, _, rfl, ⟨rfl, rfl⟩, _, rfl⟩
  refine ⟨⟨fault, c, hfault, hkeeps _ _ fault c hfault⟩,
    hfinds [] ⟨.vulkan, .ofList [.vrs], [1]⟩ _ (by simp), hmisses _ _ _ (by decide),
    hmisses _ _ _ (by decide), ?_⟩
  exact hperm _ _ (reverse_perm _).symm (by decide)

end VariantContainer
end ShaderDialect
