import Mathlib.Data.List.Perm.Subperm
import ShaderDialect.Proofs.Bytes
import ShaderDialect.Proofs.Success
import ShaderDialect.VariantContainer

/-! Containers as bytes. What is read from any bytes is told by their head, their directory and the
parts that it points to; from this, a container is read back from its own bytes, and from no fewer
of them. -/
namespace ShaderDialect

open Bytes List Success

variable {n : Nat}

theorem Target.ofCode?_eq_some {t : Target} : ofCode? n = some t ↔ n = t.code := by
  constructor
  · intro h
    have hcode := find?_some h
    exact (beq_iff_eq.1 hcode).symm
  · rintro rfl
    cases t <;> rfl

theorem FeatureSet.ofNat?_eq_some {s : FeatureSet} : ofNat? n = some s ↔ n = s.toNat := by
  obtain ⟨bits⟩ := s
  have hlt : bits.toNat < 64 := bits.isLt
  simp only [ofNat?, toNat]
  constructor
  · intro h
    split at h
    · next hn =>
      simp only [Option.some.injEq, FeatureSet.mk.injEq] at h
      rw [← h, BitVec.toNat_ofNat, Nat.mod_eq_of_lt hn]
    · cases h
  · rintro rfl
    rw [if_pos hlt, BitVec.ofNat_toNat, BitVec.setWidth_eq]

theorem Variant.key_lt (v : Variant) : v.key < 256 := by
  have hbits : v.features.toNat < 64 := v.features.bits.isLt
  have hcode : v.target.code ≤ 3 := by cases v.target <;> decide
  simp only [Variant.key, variantKey]
  omega

namespace VariantContainer

section Inserting
variable {c d : VariantContainer} {v : Variant} {vs ws : List Variant}

theorem exists_key_of_place? (h : place? v vs = none) : ∃ w ∈ vs, w.key = v.key := by
  induction vs with
  | nil => simp [place?] at h
  | cons x xs ih =>
    rw [place?] at h
    split at h
    · cases h
    · next hle =>
      split at h
      · obtain ⟨w, hw, hk⟩ := ih (Option.map_eq_none_iff.1 h)
        exact ⟨w, mem_cons_of_mem x hw, hk⟩
      · next hge => exact ⟨x, mem_cons_self, by omega⟩

theorem nodup_keys (c : VariantContainer) : (c.variants.map Variant.key).Nodup :=
  pairwise_map.2 (c.sorted.imp Nat.ne_of_lt)

theorem eq_of_perm (h : c.variants.Perm d.variants) : c = d := by
  obtain ⟨vs, hv⟩ := c
  obtain ⟨ws, hw⟩ := d
  obtain rfl : vs = ws :=
    h.eq_of_pairwise (fun _ _ _ _ hab hba => absurd hab (Nat.lt_asymm hba)) hv hw
  rfl

theorem with?_eq_some : c.with? v = some d ↔ d.variants.Perm (v :: c.variants) := by
  unfold with?
  split
  · next ws h =>
    rw [Option.some.injEq]
    constructor
    · rintro rfl
      exact perm_place? h
    · intro hd
      exact eq_of_perm ((perm_place? h).trans hd.symm)
  · next h =>
    simp only [reduceCtorEq, false_iff]
    intro hd
    obtain ⟨w, hw, hk⟩ := exists_key_of_place? h
    have hnodup := ((hd.map Variant.key).nodup_iff).1 d.nodup_keys
    rw [map_cons, nodup_cons] at hnodup
    exact hnodup.1 (hk ▸ mem_map_of_mem hw)

theorem with?_eq_none : c.with? v = none ↔ v.key ∈ c.variants.map Variant.key := by
  constructor
  · intro h
    unfold with? at h
    split at h
    · cases h
    · next hnone =>
      obtain ⟨w, hw, hkey⟩ := exists_key_of_place? hnone
      exact hkey ▸ mem_map_of_mem hw
  · intro hmem
    by_contra hne
    obtain ⟨d, hd⟩ := Option.ne_none_iff_exists'.1 hne
    -- The container would hold two variants of one key.
    have hnodup := ((with?_eq_some.1 hd).map Variant.key).nodup_iff.1 d.nodup_keys
    exact (nodup_cons.1 hnodup).1 hmem

theorem insert_eq_ok : c.insert v = .ok d ↔ d.variants.Perm (v :: c.variants) := by
  rw [← with?_eq_some, insert, run_add]
  cases c.with? v <;> simp [Except.map]

/-- Inserts succeed exactly if the keys differ, and leave all variants in their order. -/
theorem foldlM_insert_eq_ok :
    vs.foldlM insert c = .ok d ↔ d.variants.Perm (vs ++ c.variants) := by
  induction vs generalizing c with
  | nil =>
    simp only [foldlM_nil, pure_eq_ok, nil_append]
    exact ⟨fun h => h ▸ .refl _, fun h => eq_of_perm h.symm⟩
  | cons v vs ih =>
    simp only [foldlM_cons, bind_eq_ok, insert_eq_ok, ih]
    constructor
    · rintro ⟨e, he, hd⟩
      exact hd.trans ((he.append_left vs).trans perm_middle)
    · intro hd
      -- The container of `v` and what was there before: `d` without the other variants.
      have hsub : (v :: c.variants).Subperm d.variants :=
        ((sublist_append_right vs _).subperm).trans (perm_middle.trans hd.symm).subperm
      obtain ⟨es, hes, hsorted⟩ := hsub
      refine ⟨⟨es, d.sorted.sublist hsorted⟩, hes, ?_⟩
      exact hd.trans (perm_middle.symm.trans (hes.symm.append_left vs))

theorem length_variants_le (c : VariantContainer) : c.variants.length ≤ 256 := by
  have hsub : c.variants.map Variant.key ⊆ List.range 256 := by
    intro k hk
    obtain ⟨v, -, rfl⟩ := mem_map.1 hk
    exact mem_range.2 v.key_lt
  simpa using (subperm_of_subset c.nodup_keys hsub).length_le

end Inserting

section Reading
variable {data : List UInt8} {v : Variant} {vs : List Variant} {c d : VariantContainer}
  {position offset : Nat}

theorem number_eq_ok {width start : Nat} :
    number width data start = .ok n ↔ read? width data start = some n := by
  rw [number]
  split <;> simp_all

/-- The directory tells at a position that the bytes of a variant start at an offset. -/
structure Lists (data : List UInt8) (position offset : Nat) (v : Variant) : Prop where
  target : Bytes.read? 4 data (headLength + entryLength * position) = some v.target.code
  features : Bytes.read? 8 data (headLength + entryLength * position + 4) = some v.features.toNat
  offset : Bytes.read? 8 data (headLength + entryLength * position + 12) = some offset
  length : Bytes.read? 8 data (headLength + entryLength * position + 20) = some v.bytes.length

theorem entry_eq_ok : entry data position = .ok v ↔
    ∃ offset, Lists data position offset v ∧
      slice? data offset v.bytes.length = some v.bytes := by
  simp only [entry, bind_eq_ok, number_eq_ok]
  constructor
  · rintro ⟨code, hcode, bits, hbits, offset, hoffset, length, hlength, h⟩
    split at h
    · next target ht =>
      split at h
      · next features hf =>
        split at h
        · next bytes hb =>
          cases h
          obtain rfl := Target.ofCode?_eq_some.1 ht
          obtain rfl := FeatureSet.ofNat?_eq_some.1 hf
          obtain ⟨-, -, -, -, rfl⟩ := slice?_eq_some.1 hb
          exact ⟨offset, ⟨hcode, hbits, hoffset, hlength⟩, hb⟩
        · cases h
      · cases h
    · cases h
  · rintro ⟨offset, h, hb⟩
    refine ⟨_, h.target, _, h.features, _, h.offset, _, h.length, ?_⟩
    rw [Target.ofCode?_eq_some.2 rfl, FeatureSet.ofNat?_eq_some.2 rfl, hb]
    rfl

theorem entries_eq_ok {count : Nat} : entries data count position c = .ok d ↔
    ∃ vs, vs.length = count ∧ d.variants.Perm (vs ++ c.variants) ∧
      ∀ i v, vs[i]? = some v → entry data (position + i) = .ok v := by
  induction count generalizing position c with
  | zero =>
    simp only [entries, length_eq_zero_iff, exists_eq_left, Except.ok.injEq, nil_append]
    exact ⟨fun h => h ▸ ⟨.refl _, by simp⟩, fun h => eq_of_perm h.1.symm⟩
  | succ count ih =>
    simp only [entries, bind_eq_ok, ih]
    constructor
    · rintro ⟨v, hv, e, he, vs, rfl, hd, hvs⟩
      refine ⟨v :: vs, rfl, foldlM_insert_eq_ok.1 ?_, ?_⟩
      · simp only [foldlM_cons, bind_eq_ok]
        exact ⟨e, he, foldlM_insert_eq_ok.2 hd⟩
      · rintro (_ | i) w hw
        · cases hw
          exact hv
        · rw [Nat.add_comm i, ← Nat.add_assoc]
          exact hvs i w hw
    · rintro ⟨_ | ⟨v, vs⟩, hlen, hd, hvs⟩
      · cases hlen
      · have hd := foldlM_insert_eq_ok.2 hd
        simp only [foldlM_cons, bind_eq_ok] at hd
        obtain ⟨e, he, hd⟩ := hd
        refine ⟨v, hvs 0 v rfl, e, he, vs, Nat.succ.inj hlen, foldlM_insert_eq_ok.1 hd,
          fun i w hw => ?_⟩
        rw [Nat.add_assoc, Nat.add_comm 1]
        exact hvs (i + 1) w hw

/-- What is read are the variants that the directory lists, in whatever order. -/
theorem ofBytes_eq_ok : ofBytes data = .ok c ↔
    headLength ≤ data.length ∧ data.take 4 = magic ∧ read? 4 data 4 = some version ∧
      ∃ vs, read? 4 data 8 = some vs.length ∧ c.variants.Perm vs ∧
        ∀ i v, vs[i]? = some v → entry data i = .ok v := by
  have hcount : (∃ n, read? 4 data 8 = some n ∧ entries data n 0 empty = .ok c) ↔
      ∃ vs, read? 4 data 8 = some vs.length ∧ c.variants.Perm vs ∧
        ∀ i v, vs[i]? = some v → entry data i = .ok v := by
    simp only [entries_eq_ok, empty, append_nil, Nat.zero_add]
    constructor
    · rintro ⟨_, hn, vs, rfl, h⟩
      exact ⟨vs, hn, h⟩
    · rintro ⟨vs, hn, h⟩
      exact ⟨_, hn, vs, rfl, h⟩
  rw [← hcount, ofBytes]
  by_cases hhead : data.length < headLength ∨ data.take 4 ≠ magic
  · simp only [if_pos hhead, bind_eq_ok, throw_eq_ok, false_and, exists_false, false_iff, not_and]
    intro hlen hmagic
    exact absurd hhead (by simp [hmagic, hlen])
  · rw [if_neg hhead]
    obtain ⟨hlen, hmagic⟩ : headLength ≤ data.length ∧ data.take 4 = magic := by
      simpa [not_or] using hhead
    simp only [hlen, hmagic, true_and, bind_eq_ok, number_eq_ok]
    constructor
    · rintro ⟨found, hfound, h⟩
      by_cases hv : found = version
      · rw [if_neg (not_not.2 hv)] at h
        exact ⟨hv ▸ hfound, by simpa only [bind_eq_ok, number_eq_ok] using h⟩
      · rw [if_pos hv] at h
        simp at h
    · rintro ⟨hfound, h⟩
      refine ⟨version, hfound, ?_⟩
      simpa only [ne_eq, not_true_eq_false, if_false, bind_eq_ok, number_eq_ok] using h

end Reading

section Writing
variable {c : VariantContainer} {v : Variant} {vs ws : List Variant} (offset : Nat)

@[simp] theorem length_directory (vs : List Variant) :
    (directory offset vs).length = entryLength * vs.length := by
  induction vs generalizing offset with
  | nil => rfl
  | cons v vs ih =>
    simp only [directory, length_append, length_ofNat, ih, length_cons, entryLength]
    omega

theorem directory_append (vs ws : List Variant) :
    directory offset (vs ++ ws) =
      directory offset vs ++ directory (offset + (vs.flatMap Variant.bytes).length) ws := by
  induction vs generalizing offset with
  | nil => simp [directory]
  | cons v vs ih =>
    simp [directory, ih, Nat.add_assoc]

theorem length_toBytes (c : VariantContainer) :
    c.toBytes.length =
      headLength + entryLength * c.variants.length + (c.variants.flatMap Variant.bytes).length := by
  simp [toBytes, magic, headLength]
  omega

theorem lists_directory {front back : List UInt8} {offset : Nat}
    (hfront : front.length = headLength)
    (hv : offset + ((vs ++ [v]).flatMap Variant.bytes).length < 256 ^ 8) :
    Lists (front ++ (directory offset (vs ++ v :: ws) ++ back)) vs.length
      (offset + (vs.flatMap Variant.bytes).length) v := by
  have hbits : v.features.toNat < 256 ^ 8 := Nat.lt_trans v.features.bits.isLt (by decide)
  have hcode : v.target.code < 256 ^ 4 := by cases v.target <;> decide
  simp only [flatMap_append, flatMap_cons, flatMap_nil, append_nil,
    length_append] at hv
  obtain ⟨before, hbefore, hlen⟩ : ∃ before, front ++ directory offset vs = before ∧
      headLength + entryLength * vs.length = before.length := ⟨_, rfl, by simp [hfront]⟩
  -- The fields stand one after the other behind the entries of `vs`.
  have hdata : front ++ (directory offset (vs ++ v :: ws) ++ back) =
      before ++ (ofNat 4 v.target.code ++ (ofNat 8 v.features.toNat ++
        (ofNat 8 (offset + (vs.flatMap Variant.bytes).length) ++
          (ofNat 8 v.bytes.length ++
            (directory (offset + (vs.flatMap Variant.bytes).length + v.bytes.length) ws ++
              back))))) := by
    simp [← hbefore, directory_append, directory]
  rw [hdata]
  constructor
  · rw [hlen, ← Nat.add_zero before.length, read?_append_left]
    exact read?_ofNat _ hcode
  · rw [hlen, read?_append_left]
    exact (read?_skip 4 _ _ 0).trans (read?_ofNat _ hbits)
  · rw [hlen, read?_append_left]
    exact (read?_skip 4 _ _ 8).trans ((read?_skip 8 _ _ 0).trans
      (read?_ofNat _ (by omega)))
  · rw [hlen, read?_append_left]
    exact (read?_skip 4 _ _ 16).trans ((read?_skip 8 _ _ 8).trans
      ((read?_skip 8 _ _ 0).trans (read?_ofNat _ (by omega))))

def head (c : VariantContainer) : List UInt8 :=
  magic ++ (Bytes.ofNat 4 version ++ Bytes.ofNat 4 c.variants.length)

def start (c : VariantContainer) : Nat := headLength + entryLength * c.variants.length

theorem length_head (c : VariantContainer) : c.head.length = headLength := by
  simp [head, magic, headLength]

theorem toBytes_eq (c : VariantContainer) :
    c.toBytes = c.head ++ (directory c.start c.variants ++ c.variants.flatMap Variant.bytes) := by
  simp [toBytes, head, start]

theorem read?_count (c : VariantContainer) :
    read? 4 c.toBytes 8 = some c.variants.length := by
  have hcount := c.length_variants_le
  have hskip := read?_append_left 4 magic
    (ofNat 4 version ++ (ofNat 4 c.variants.length ++
      (directory c.start c.variants ++ c.variants.flatMap Variant.bytes))) 4
  simp only [toBytes_eq, head, append_assoc]
  exact hskip.trans ((read?_skip 4 _ _ 0).trans (read?_ofNat _ (by omega)))

theorem read?_version (c : VariantContainer) : read? 4 c.toBytes 4 = some version := by
  have hskip := read?_append_left 4 magic
    (ofNat 4 version ++ (ofNat 4 c.variants.length ++
      (directory c.start c.variants ++ c.variants.flatMap Variant.bytes))) 0
  simp only [toBytes_eq, head, append_assoc]
  exact hskip.trans (read?_ofNat _ (by decide))

theorem lists_toBytes (hc : c.toBytes.length < 2 ^ 64) (hvs : c.variants = vs ++ v :: ws) :
    Lists c.toBytes vs.length (c.start + (vs.flatMap Variant.bytes).length) v := by
  rw [length_toBytes] at hc
  rw [toBytes_eq]
  nth_rewrite 1 [hvs]
  refine lists_directory c.length_head ?_
  rw [hvs] at hc
  simp only [start, hvs, flatMap_append, flatMap_cons, flatMap_nil,
    length_append, length_nil] at hc ⊢
  omega

theorem slice?_toBytes (hvs : c.variants = vs ++ v :: ws) :
    slice? c.toBytes (c.start + (vs.flatMap Variant.bytes).length) v.bytes.length =
      some v.bytes := by
  refine slice?_eq_some.2
    ⟨c.head ++ (directory c.start c.variants ++ vs.flatMap Variant.bytes),
      ws.flatMap Variant.bytes, ?_, ?_, rfl⟩
  · rw [toBytes_eq]
    nth_rewrite 2 [hvs]
    simp
  · simp [length_head, start]
    omega

end Writing

section Truncating
variable {data : List UInt8} {c : VariantContainer}

/-- The part of the last variant ends with the bytes of the container, also if it is empty. So a
beginning of these bytes that is read is all of them. -/
theorem eq_toBytes_of_initial (hc : c.toBytes.length < 2 ^ 64) (hp : data <+: c.toBytes)
    {d : VariantContainer} (h : ofBytes data = .ok d) : data = c.toBytes := by
  obtain ⟨hhead, -, -, vs, hcount, -, hentry⟩ := ofBytes_eq_ok.1 h
  refine hp.eq_of_length_le ?_
  have hlen : vs.length = c.variants.length := by
    have hread := read?_of_longer hp hcount
    rw [read?_count, Option.some.injEq] at hread
    exact hread.symm
  rcases eq_nil_or_concat c.variants with hnil | ⟨ws, v, hws⟩
  · rw [length_toBytes, hnil]
    exact hhead
  · rw [concat_eq_append] at hws
    obtain ⟨u, hu⟩ : ∃ u, vs[ws.length]? = some u := by
      refine ⟨_, getElem?_eq_getElem ?_⟩
      simp [hlen, hws]
    obtain ⟨offset, hlists, hslice⟩ := entry_eq_ok.1 (hentry _ u hu)
    have hle := length_le_of_slice? hslice
    have hwritten := lists_toBytes hc hws
    have hoffset := (read?_of_longer hp hlists.offset).symm.trans hwritten.offset
    have hlength := (read?_of_longer hp hlists.length).symm.trans hwritten.length
    rw [Option.some.inj hoffset, Option.some.inj hlength] at hle
    rw [length_toBytes, hws]
    simp only [start, hws, flatMap_append, flatMap_cons, flatMap_nil,
      length_append, length_nil] at hle ⊢
    omega

end Truncating

theorem ofBytes_toBytes {c : VariantContainer} (hc : c.toBytes.length < 2 ^ 64) :
    ofBytes c.toBytes = .ok c := by
  refine ofBytes_eq_ok.2 ⟨?_, ?_, c.read?_version, c.variants, c.read?_count, .refl _, ?_⟩
  · rw [length_toBytes]
    omega
  · simp [toBytes_eq, head, magic]
  · intro i v hi
    obtain ⟨hlt, rfl⟩ := List.getElem?_eq_some_iff.1 hi
    have hvs : c.variants = c.variants.take i ++ c.variants[i] :: c.variants.drop (i + 1) := by
      simp
    have hlen : (c.variants.take i).length = i := by
      rw [length_take]
      omega
    have hlists := lists_toBytes hc hvs
    rw [hlen] at hlists
    exact entry_eq_ok.2 ⟨_, hlists, slice?_toBytes hvs⟩

/-- Every container is read back from its bytes, unless these are too many for their directory, and
a part of them that is cut off at the end is missed wherever the cut is. What has been read from any
bytes is read back in the same way. -/
theorem toBytes_faithful :
    (∀ c : VariantContainer, c.toBytes.length < 2 ^ 64 →
      ofBytes c.toBytes = .ok c ∧
        ∀ data, data <+: c.toBytes → data ≠ c.toBytes → ∃ fault, ofBytes data = .error fault) ∧
    ∀ (data : List UInt8) (c : VariantContainer), ofBytes data = .ok c →
      c.toBytes.length < 2 ^ 64 → ofBytes c.toBytes = .ok c := by
  refine ⟨fun c hc => ⟨ofBytes_toBytes hc, fun data hp hne => ?_⟩,
    fun _ c _ hc => ofBytes_toBytes hc⟩
  cases h : ofBytes data with
  | error fault => exact ⟨fault, rfl⟩
  | ok d => exact absurd (eq_toBytes_of_initial hc hp h) hne

def twoVariants : VariantContainer :=
  ⟨[⟨.direct3d12, .empty, []⟩, ⟨.vulkan, .ofList [.vrs], [7, 8]⟩], by decide⟩

/-- The same variants, listed the other way round, with parts that overlap and a byte that belongs
to none. -/
def twoVariantsAgain : List UInt8 :=
  magic ++ Bytes.ofNat 4 version ++ Bytes.ofNat 4 2 ++
    (Bytes.ofNat 4 2 ++ Bytes.ofNat 8 8 ++ Bytes.ofNat 8 68 ++ Bytes.ofNat 8 2) ++
    (Bytes.ofNat 4 1 ++ Bytes.ofNat 8 0 ++ Bytes.ofNat 8 69 ++ Bytes.ofNat 8 0) ++ [7, 8, 9]

theorem toBytes_faithful_twoVariants :
    twoVariants.toBytes.length = 70 ∧ ofBytes twoVariants.toBytes = .ok twoVariants ∧
      (∃ fault, ofBytes (twoVariants.toBytes.take 69) = .error fault) ∧
      twoVariantsAgain ≠ twoVariants.toBytes ∧ ofBytes twoVariantsAgain = .ok twoVariants ∧
      ofBytes twoVariants.toBytes = .ok twoVariants := by
  have hlen : twoVariants.toBytes.length = 70 := by decide
  have hagain : ofBytes twoVariantsAgain = .ok twoVariants := by rfl
  obtain ⟨hback, hcut⟩ := toBytes_faithful.1 twoVariants (by rw [hlen]; decide)
  refine ⟨hlen, hback, hcut _ ( take_prefix _ _) ?_, by decide, hagain,
    toBytes_faithful.2 _ _ hagain (by rw [hlen]; decide)⟩
  intro he
  have := congrArg List.length he
  rw [length_take, hlen] at this
  omega

end VariantContainer
end ShaderDialect
