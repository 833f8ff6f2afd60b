import ShaderDialect.Proofs.Build.Rows

/-! When a recorded row is fresh. What is hashed of a list of files determines their contents, and
the digits of a hash determine the hash, so unless the hash collides a row is fresh exactly as long
as its files, its arguments and its outputs are what they were. -/
namespace ShaderDialect

open Fingerprint List Success

variable {n m : Nat}

theorem Text.hexDigit_inj (h : hexDigit n = hexDigit m) : n % 16 = m % 16 := by
  have hall : ∀ i < 16, ∀ j < 16, Nat.digitChar i = Nat.digitChar j → i = j := by decide
  exact hall _ (Nat.mod_lt n (by decide)) _ (Nat.mod_lt m (by decide)) h

theorem Text.hexDigits_inj {width : Nat} (hn : n < 16 ^ width) (hm : m < 16 ^ width)
    (h : hexDigits width n = hexDigits width m) : n = m := by
  induction width generalizing n m with
  | zero => omega
  | succ width ih =>
    rw [hexDigits, hexDigits] at h
    obtain ⟨hhigh, hlow⟩ := append_inj' h rfl
    have hlow := hexDigit_inj (singleton_inj.1 hlow)
    rw [Nat.pow_succ] at hn hm
    have hhigh := ih (Nat.div_lt_of_lt_mul (by omega)) (Nat.div_lt_of_lt_mul (by omega)) hhigh
    omega

namespace Hash128
variable (h : Hash128)

theorem toNat_eq : h.toNat = h.high.toNat * 2 ^ 64 + h.low.toNat := by
  rw [toNat, Nat.shiftLeft_eq]

theorem toNat_lt : h.toNat < 16 ^ 32 := by
  have hlow := h.low.toNat_lt
  have hhigh := h.high.toNat_lt
  rw [toNat_eq]
  omega

theorem toNat_inj {h h' : Hash128} (he : h.toNat = h'.toNat) : h = h' := by
  obtain ⟨low, high⟩ := h
  obtain ⟨low', high'⟩ := h'
  have hlow := low.toNat_lt
  have hlow' := low'.toNat_lt
  simp only [toNat_eq] at he
  simp only [mk.injEq, ← UInt64.toNat_inj]
  omega

end Hash128

namespace Fingerprint
variable {bytes bytes' : List UInt8} {t t' : FileTree} {ps : List Path}

theorem ofBytes_inj (h : ofBytes bytes = ofBytes bytes') :
    Xxh3.hash128 bytes = Xxh3.hash128 bytes' := by
  rw [ofBytes, ofBytes, Text.hex, Text.hex, String.ofList_inj] at h
  exact Hash128.toNat_inj (Text.hexDigits_inj (Hash128.toNat_lt _) (Hash128.toNat_lt _) h)

theorem exists_stream (h : ∀ p ∈ ps, ∃ f, t.read p = .ok f) : ∃ bytes, stream t ps = .ok bytes := by
  induction ps with
  | nil => exact ⟨[], rfl⟩
  | cons p ps ih =>
    rw [forall_mem_cons] at h
    obtain ⟨⟨f, hf⟩, hps⟩ := h
    obtain ⟨bytes, hbytes⟩ := ih hps
    exact ⟨framed p f ++ bytes, by rw [stream, hf, hbytes]; rfl⟩

/-- The lengths of the files fit into 64 bits. -/
def SizesFit (t : FileTree) (ps : List Path) : Prop :=
  ∀ p ∈ ps, ∀ f, t.read p = .ok f → f.length < 2 ^ 64

theorem stream_inj (hl : SizesFit t ps) (hl' : SizesFit t' ps) (h : stream t ps = .ok bytes)
    (h' : stream t' ps = .ok bytes') : bytes = bytes' ↔ ∀ p ∈ ps, t'.read p = t.read p := by
  constructor
  · rintro rfl p hp
    obtain ⟨f, hf, hf'⟩ := read_eq_of_stream_eq hl hl' h h' p hp
    rw [hf, hf']
  · intro hsame
    rw [stream_congr hsame, h] at h'
    exact Except.ok.inj h'

/-- The hash does not collide on what is hashed of the files in the two trees. -/
def TellsApart (t t' : FileTree) (ps : List Path) : Prop :=
  ∀ bytes bytes', stream t ps = .ok bytes → stream t' ps = .ok bytes' →
    Xxh3.hash128 bytes = Xxh3.hash128 bytes' → bytes = bytes'

theorem ofFiles_eq_iff {fingerprint : String} (hl : SizesFit t ps) (hl' : SizesFit t' ps)
    (hapart : TellsApart t t' ps) (h : ofFiles t ps = .ok fingerprint) :
    ofFiles t' ps = .ok fingerprint ↔ ∀ p ∈ ps, t'.read p = t.read p := by
  obtain ⟨bytes, hbytes, rfl⟩ := map_eq_ok.1 h
  constructor
  · intro h'
    obtain ⟨bytes', hbytes', he⟩ := map_eq_ok.1 h'
    exact (stream_inj hl hl' hbytes hbytes').1
      (hapart _ _ hbytes hbytes' (ofBytes_inj he.symm))
  · intro hsame
    rw [ofFiles_congr hsame, h]

end Fingerprint

namespace BuildCache
variable {t : FileTree} {p : Path} {c : BuildCache} {row : CacheRow} {before now : FileTree}

/-- A row with the fingerprint that its dependencies had before, in a file that has been left alone
since the row was recorded. -/
structure Recorded (c : BuildCache) (row : CacheRow) (before now : FileTree) : Prop where
  fingerprint : Fingerprint.ofFiles before row.dependencies = .ok row.fingerprint
  kept : ∃ t after, c.record t row = .ok after ∧
    now.read (c.rowPath row.input) = after.read (c.rowPath row.input)

theorem Recorded.load (h : c.Recorded row before now) : c.load now row.input = some row := by
  obtain ⟨t, after, hrecord, hkept⟩ := h.kept
  obtain ⟨hputs, hresolve⟩ := FileTree.place_puts hrecord
  have hread := CacheRow.read?_of_read (hkept.trans (hputs.read_of_eq rfl hresolve))
  rw [BuildCache.load, hread]
  simp [Path.same]

theorem Recorded.isFresh_iff (h : c.Recorded row before now) (arguments : String) :
    c.isFresh now row.input arguments = true ↔
      ofFiles now row.dependencies = .ok row.fingerprint ∧
      row.arguments = arguments ∧ ∀ p ∈ row.outputs, now.pathExists p = true := by
  rw [BuildCache.isFresh_iff, h.load]
  constructor
  · rintro ⟨_, ⟨⟩, ha, ho, hf⟩
    exact ⟨hf, ha, ho⟩
  · rintro ⟨hf, ha, ho⟩
    exact ⟨row, rfl, ha, ho, hf⟩

/-- Files that can be read are hashed as the same bytes exactly if they have the same contents, and
so a row is fresh exactly if its dependencies have the contents of which it was recorded, its
arguments are those that are asked for, and all of its outputs exist. -/
theorem fresh_iff_unchanged :
    (∀ (ps : List Path) (t t' : FileTree),
      (∀ p ∈ ps, ∃ f, t.read p = .ok f) → (∀ p ∈ ps, ∃ f, t'.read p = .ok f) →
      Fingerprint.SizesFit t ps → Fingerprint.SizesFit t' ps →
      ∃ bytes bytes', Fingerprint.stream t ps = .ok bytes ∧
        Fingerprint.stream t' ps = .ok bytes' ∧
        (bytes = bytes' ↔ ∀ p ∈ ps, t'.read p = t.read p)) ∧
    ∀ (c : BuildCache) (row : CacheRow) (before now : FileTree) (arguments : String),
      c.Recorded row before now →
      Fingerprint.SizesFit before row.dependencies → Fingerprint.SizesFit now row.dependencies →
      Fingerprint.TellsApart before now row.dependencies →
      (c.isFresh now row.input arguments = true ↔
        (∀ p ∈ row.dependencies, now.read p = before.read p) ∧
        row.arguments = arguments ∧ ∀ p ∈ row.outputs, now.pathExists p = true) := by
  constructor
  · intro ps t t' hread hread' hl hl'
    obtain ⟨bytes, hbytes⟩ := exists_stream hread
    obtain ⟨bytes', hbytes'⟩ := exists_stream hread'
    exact ⟨bytes, bytes', hbytes, hbytes', stream_inj hl hl' hbytes hbytes'⟩
  · intro c row before now arguments hrow hl hl' hapart
    rw [hrow.isFresh_iff, ofFiles_eq_iff hl hl' hapart hrow.fingerprint]

def noted : FileTree := ⟨[], [(["a"], .file [1] false)]⟩

def rows : BuildCache := ⟨⟨"rows"⟩⟩

def notedRow : CacheRow :=
  ⟨⟨"/a"⟩, [⟨"/a"⟩], Fingerprint.ofBytes (Fingerprint.framed ⟨"/a"⟩ [1]), "first", [⟨"/a"⟩]⟩

def notedAfter : FileTree := (rows.record noted notedRow).toOption.getD noted

/-- The tree with the row, and with other contents of the file. -/
def notedEdited : FileTree := (notedAfter.write ⟨"/a"⟩ [2]).toOption.getD noted

theorem noted_eq :
    (rows.record noted notedRow).isOk = true ∧
    (noted.read ⟨"/a"⟩ = .ok [1] ∧ notedAfter.read ⟨"/a"⟩ = .ok [1] ∧
      notedEdited.read ⟨"/a"⟩ = .ok [2]) ∧
    notedAfter.pathExists ⟨"/a"⟩ = true ∧
    notedEdited.read (rows.rowPath ⟨"/a"⟩) = notedAfter.read (rows.rowPath ⟨"/a"⟩) ∧
    Xxh3.hash128 (framed ⟨"/a"⟩ [1]) ≠ Xxh3.hash128 (framed ⟨"/a"⟩ [2]) := by
  decide +kernel

theorem record_notedRow : rows.record noted notedRow = .ok notedAfter := by
  have hok := noted_eq.1
  rw [notedAfter]
  cases h : rows.record noted notedRow with
  | error e => simp [h, Except.isOk, Except.toBool] at hok
  | ok t => rfl

theorem sizesFit_of_read {x : UInt8} (h : t.read p = .ok [x]) : Fingerprint.SizesFit t [p] := by
  intro q hq f hf
  obtain rfl := mem_singleton.1 hq
  rw [← Except.ok.inj (h.symm.trans hf)]
  simp

theorem stream_of_read {f : List UInt8} (h : t.read p = .ok f) :
    stream t [p] = .ok (framed p f) := by
  rw [stream, h]
  simp [stream, Except.map]

/-- The row is fresh after it has been recorded, and no longer once its file has been changed. -/
theorem fresh_iff_unchanged_noted :
    rows.isFresh notedAfter ⟨"/a"⟩ "first" = true ∧
    rows.isFresh notedEdited ⟨"/a"⟩ "first" = false := by
  obtain ⟨-, ⟨hread, hafter, hedited⟩, hexists, hkept, hapart⟩ := noted_eq
  have hfiles := stream_of_read hread
  have hrow : ofFiles noted notedRow.dependencies = .ok notedRow.fingerprint := by
    rw [ofFiles, notedRow, hfiles]
    rfl
  constructor
  · refine (fresh_iff_unchanged.2 rows notedRow noted notedAfter "first"
      ⟨hrow, noted, _, record_notedRow, rfl⟩ (sizesFit_of_read hread) (sizesFit_of_read hafter)
      ?_).2 ⟨?_, rfl, ?_⟩
    · intro bytes bytes' h h' _
      have hfiles' := stream_of_read hafter
      exact Except.ok.inj ((h.symm.trans hfiles).trans (hfiles'.symm.trans h'))
    · rintro p hp
      obtain rfl := mem_singleton.1 hp
      rw [hafter, hread]
    · rintro p hp
      obtain rfl := mem_singleton.1 hp
      exact hexists
  · rw [Bool.eq_false_iff]
    intro hfresh
    have hsame := ((fresh_iff_unchanged.2 rows notedRow noted notedEdited "first"
      ⟨hrow, noted, _, record_notedRow, hkept⟩ (sizesFit_of_read hread) (sizesFit_of_read hedited)
      ?_).1 hfresh).1 ⟨"/a"⟩ mem_cons_self
    · rw [hedited, hread] at hsame
      cases hsame
    · intro bytes bytes' h h' hhash
      cases hfiles.symm.trans h
      cases (stream_of_read hedited).symm.trans h'
      exact absurd hhash hapart

end BuildCache
end ShaderDialect
