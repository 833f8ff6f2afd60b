import ShaderDialect.Generate
import ShaderDialect.Proofs.ShaderUnit.Resources

/-! Names of a unit that a target's language keeps for itself. They get an underscore, which tells
them apart from all names but those that have it already; and wherever fragments are written, a name
can be replaced by its spelling. -/
namespace ShaderDialect

open Fragment Success

def IsName (x : String) : Prop := x.toList.all Scan.isWordRest

instance (x : String) : Decidable (IsName x) := inferInstanceAs (Decidable (_ = true))

namespace Target

/-- Names that a target's language keeps for itself. -/
def reserved : Target → List String
  | direct3d12 => []
  | vulkan => Glsl.reserved
  | metal => Msl.reserved

/-- Words of the dialect that a target's language has other words for. -/
def keywords : Target → List (String × String)
  | direct3d12 => []
  | vulkan => [("groupshared", "shared")]
  | metal => [("discard", "discard_fragment()"), ("groupshared", "threadgroup")]

def respell : Target → String → String
  | direct3d12, x => x
  | vulkan, x => Glsl.respell x
  | metal, x => Msl.respell x

def Respells (target : Target) (x : String) : Prop :=
  x ∈ target.reserved ∨ x ∈ target.keywords.map Prod.fst

/-- A name is reserved, and another one is its spelling. -/
def Twins (target : Target) (x y : String) : Prop := x ∈ target.reserved ∧ y = x ++ "_"

variable {target : Target} {x y : String}

theorem respell_cases (target : Target) (x : String) :
    ¬ target.Respells x ∧ target.respell x = x ∨ x ∈ target.reserved ∧ target.respell x = x ++ "_" ∨
      (x, target.respell x) ∈ target.keywords := by
  cases target with
  | direct3d12 => simp [Respells, reserved, keywords, respell]
  | vulkan =>
    by_cases hgroup : x = "groupshared"
    · subst hgroup
      exact .inr (.inr (by decide))
    by_cases hreserved : x ∈ Glsl.reserved
    · exact .inr
        (.inl ⟨hreserved, by simp [respell, Glsl.respell, Glsl.respell?, hgroup, hreserved]; rfl⟩)
    · refine .inl ⟨?_, by simp [respell, Glsl.respell, Glsl.respell?, hgroup, hreserved]⟩
      simp [Respells, reserved, keywords, hgroup, hreserved]
  | metal =>
    by_cases hdiscard : x = "discard"
    · subst hdiscard
      exact .inr (.inr (by decide))
    by_cases hgroup : x = "groupshared"
    · subst hgroup
      exact .inr (.inr (by decide))
    by_cases hreserved : x ∈ Msl.reserved
    · exact .inr (.inl ⟨hreserved,
        by simp [respell, Msl.respell, Msl.respell?, hdiscard, hgroup, hreserved]; rfl⟩)
    · refine .inl ⟨?_, by simp [respell, Msl.respell, Msl.respell?, hdiscard, hgroup, hreserved]⟩
      simp [Respells, reserved, keywords, hdiscard, hgroup, hreserved]

theorem not_respells_of_reserved (h : x ∈ target.reserved) : ¬ target.Respells (x ++ "_") := by
  have hall : ∀ target : Target, ∀ x ∈ target.reserved,
      x ++ "_" ∉ target.reserved ∧ x ++ "_" ∉ target.keywords.map Prod.fst := by
    intro target
    cases target <;> decide
  obtain ⟨hreserved, hkeyword⟩ := hall target x h
  rintro (h | h)
  · exact hreserved h
  · exact hkeyword h

theorem respell_of_not_respells (h : ¬ target.Respells x) : target.respell x = x := by
  rcases target.respell_cases x with ⟨-, hx⟩ | ⟨hx, -⟩ | hx
  · exact hx
  · exact absurd (.inl hx) h
  · exact absurd (.inr (List.mem_map_of_mem hx)) h

theorem respell_of_reserved (h : x ∈ target.reserved) : target.respell x = x ++ "_" := by
  have hall : ∀ target : Target, ∀ x ∈ target.reserved, x ∉ target.keywords.map Prod.fst := by
    intro target
    cases target <;> decide
  rcases target.respell_cases x with ⟨hx, -⟩ | ⟨-, hx⟩ | hx
  · exact absurd (.inl h) hx
  · exact hx
  · exact absurd (List.mem_map_of_mem hx) (hall target x h)

/-- A word keeps its spelling exactly if it is not respelled. -/
theorem respell_eq_self_iff : target.respell x = x ↔ ¬ target.Respells x := by
  refine ⟨fun heq => ?_, respell_of_not_respells⟩
  have hkeywords : ∀ target : Target, ∀ k ∈ target.keywords, k.2 ≠ k.1 := by
    intro target
    cases target <;> decide
  rcases target.respell_cases x with ⟨hx, -⟩ | ⟨-, hx⟩ | hx
  · exact hx
  · have hlength := congrArg String.length (hx.symm.trans heq)
    simp at hlength
  · exact absurd heq (hkeywords target _ hx)

theorem Twins.respell_eq (h : target.Twins x y) : target.respell x = target.respell y := by
  obtain ⟨hx, rfl⟩ := h
  rw [respell_of_reserved hx, respell_of_not_respells (not_respells_of_reserved hx)]

/-- What stands for a keyword is no name, or is reserved itself, and has no underscore at its
end. -/
theorem keyword_spelling : ∀ target : Target, ∀ k ∈ target.keywords,
    (k.2 ∈ target.reserved ∨ '(' ∈ k.2.toList) ∧ (∀ x ∈ target.reserved, k.2 ≠ x ++ "_") ∧
      ∀ k' ∈ target.keywords, k.2 = k'.2 → k = k' := by
  intro target
  cases target <;> decide

theorem ne_keyword_spelling (hx : IsName x) (h : ¬ target.Respells x) {k : String × String}
    (hk : k ∈ target.keywords) : x ≠ k.2 := by
  rintro rfl
  rcases (keyword_spelling target k hk).1 with hreserved | hparen
  · exact h (.inl hreserved)
  · exact absurd (List.all_eq_true.1 hx '(' hparen) (by decide)

/-- Two names are spelled alike exactly if they are one, or one is reserved and the other is its
spelling. -/
theorem respell_eq_iff (hx : IsName x) (hy : IsName y) :
    target.respell x = target.respell y ↔ x = y ∨ target.Twins x y ∨ target.Twins y x := by
  constructor
  · intro h
    rcases target.respell_cases x with ⟨hx₁, hx₂⟩ | ⟨hx₁, hx₂⟩ | hx₁ <;>
      rcases target.respell_cases y with ⟨hy₁, hy₂⟩ | ⟨hy₁, hy₂⟩ | hy₁
    · exact .inl (hx₂.symm.trans (h.trans hy₂))
    · exact .inr (.inr ⟨hy₁, hx₂.symm.trans (h.trans hy₂)⟩)
    · exact absurd (hx₂.symm.trans h) (ne_keyword_spelling hx hx₁ hy₁)
    · exact .inr (.inl ⟨hx₁, hy₂.symm.trans (h.symm.trans hx₂)⟩)
    · rw [hx₂, hy₂, String.append_left_inj] at h
      exact .inl h
    · exact absurd (h.symm.trans hx₂) ((keyword_spelling target _ hy₁).2.1 x hx₁)
    · exact absurd (hy₂.symm.trans h.symm) (ne_keyword_spelling hy hy₁ hx₁)
    · exact absurd (h.trans hy₂) ((keyword_spelling target _ hx₁).2.1 y hy₁)
    · exact .inl (Prod.mk.inj ((keyword_spelling target _ hx₁).2.2 _ hy₁ h)).1
  · rintro (rfl | h | h)
    · rfl
    · exact h.respell_eq
    · exact h.respell_eq.symm

end Target

namespace ShaderUnit
variable {u : ShaderUnit} {options : EmitOptions} {role : Role} {x : String}

def language (u : ShaderUnit) (options : EmitOptions) : Language :=
  match u.target with
  | .direct3d12 => Hlsl.language
  | .vulkan => Glsl.language options.descriptorIndexing
  | .metal => Msl.language (Msl.usesArgumentBuffers options u)

def writer (u : ShaderUnit) (options : EmitOptions) (role : Role) : Writer :=
  ⟨u.language options, u, role⟩

/-- A name that stands neither for a resource nor for a built-in type. -/
def Own (u : ShaderUnit) (x : String) : Prop := u.resource? x = none ∧ ValueType.builtin? x = none

theorem respell_language (u : ShaderUnit) (options : EmitOptions) (x : String) :
    (u.language options).respell x = u.target.respell x := by
  unfold language
  cases u.target <;> rfl

theorem word_of_own (h : u.Own x) : (u.writer options role).word x = u.target.respell x := by
  rw [← respell_language u options]
  have hresource : (u.writer options role).unit.resource? x = none := h.1
  simp only [Writer.word, hresource, h.2]
  rfl

/-- The names of a unit with an underscore for those that are reserved. -/
def spelled (u : ShaderUnit) (x : String) : String :=
  if (u.resource? x).isNone ∧ x ∈ u.target.reserved then x ++ "_" else x

/-- No resource is named like the spelling of a reserved name. -/
def Separate (u : ShaderUnit) : Prop := ∀ x ∈ u.target.reserved, u.resource? (x ++ "_") = none

theorem resource?_spelled (h : u.Separate) (x : String) :
    u.resource? (u.spelled x) = u.resource? x := by
  unfold spelled
  split
  · next hx => rw [h x hx.2, Option.isNone_iff_eq_none.1 hx.1]
  · rfl

theorem builtin?_of_reserved (h : x ∈ u.target.reserved) :
    ValueType.builtin? x = none ∧ ValueType.builtin? (x ++ "_") = none := by
  have hall : ∀ target : Target, ∀ x ∈ target.reserved,
      ValueType.builtin? x = none ∧ ValueType.builtin? (x ++ "_") = none := by
    intro target
    cases target <;> decide +kernel
  exact hall u.target x h

theorem word_spelled (h : u.Separate) (x : String) :
    (u.writer options role).word (u.spelled x) = (u.writer options role).word x := by
  unfold spelled
  split
  · next hx =>
    obtain ⟨hresource, hreserved⟩ := hx
    obtain ⟨hbuiltin, hbuiltin'⟩ := builtin?_of_reserved hreserved
    rw [word_of_own ⟨h x hreserved, hbuiltin'⟩,
      word_of_own ⟨Option.isNone_iff_eq_none.1 hresource, hbuiltin⟩]
    have htwins : u.target.Twins x (x ++ "_") := ⟨hreserved, rfl⟩
    exact htwins.respell_eq.symm
  · rfl

end ShaderUnit

namespace CallSite
variable {c c' : CallSite}

/-- Calls that differ only in how their arguments are written in the source, and start with the same
resources. -/
structure Same (c c' : CallSite) : Prop where
  eq : c' = { c with source := c'.source }
  resource? : ∀ position, c'.resource? position = c.resource? position

theorem Same.resource (h : c.Same c') (position : Nat) :
    c'.resource position = c.resource position := by
  rw [CallSite.resource, CallSite.resource, h.resource?, h.eq]

theorem Same.access_hlsl (h : c.Same c') : Hlsl.access c' = Hlsl.access c := by
  have hresource := h.resource 0
  rw [h.eq] at hresource ⊢
  unfold Hlsl.access
  simp only [hresource]
  rfl

theorem Same.access_glsl (h : c.Same c') : Glsl.access c' = Glsl.access c := by
  have hresource := h.resource 0
  rw [h.eq] at hresource ⊢
  unfold Glsl.access Glsl.samplerType Glsl.shadowType Glsl.load Glsl.store
  simp only [hresource]
  rfl

theorem Same.access_msl (h : c.Same c') : Msl.access c' = Msl.access c := by
  have hresource := h.resource 0
  rw [h.eq] at hresource ⊢
  unfold Msl.access Msl.textureCall Msl.load Msl.store
  simp only [hresource]
  rfl

end CallSite

namespace Fragment
variable {σ : String → String}

mutual
/-- Renames the words that do not follow a dot. Functions keep their names. -/
def rename (σ : String → String) (dot : Bool) : Fragment → Fragment
  | token ⟨.word x, loc⟩ => token ⟨.word (if dot then x else σ x), loc⟩
  | call name args loc => call name (renameArgs σ args) loc
  | ret args loc => ret (renameArgs σ args) loc
  | f => f

def renameList (σ : String → String) (dot : Bool) : List Fragment → List Fragment
  | [] => []
  | f :: fs => f.rename σ dot :: renameList σ (f.isDelimiter .dot) fs

def renameArgs (σ : String → String) : List (List Fragment) → List (List Fragment)
  | [] => []
  | arg :: args => renameList σ false arg :: renameArgs σ args
end

theorem word?_rename (dot : Bool) (f : Fragment) :
    (f.rename σ dot).word? = f.word?.map fun x => if dot then x else σ x := by
  cases f with
  | token t =>
    obtain ⟨token, loc⟩ := t
    cases token <;> rfl
  | _ => rfl

theorem getElem?_renameArgs (args : List (List Fragment)) (i : Nat) :
    (renameArgs σ args)[i]? = args[i]?.map (renameList σ false) := by
  induction args generalizing i with
  | nil => rfl
  | cons arg args ih =>
    cases i with
    | zero => rfl
    | succ i => exact ih i

end Fragment

namespace Writer
variable {w : Writer} {σ : String → String}

/-- A renaming that a writer does not see: words are spelled as before, and name the same
resources. -/
structure Overlooks (w : Writer) (σ : String → String) : Prop where
  word : ∀ x, w.word (σ x) = w.word x
  resource? : ∀ x, w.unit.resource? (σ x) = w.unit.resource? x
  access : ∀ c c' : CallSite, c.Same c' → w.language.access c' = w.language.access c

namespace Overlooks

theorem call (h : w.Overlooks σ) (name : String) (source : List (List Fragment))
    (args : List String) (loc : Loc) :
    w.call name (renameArgs σ source) args loc = w.call name source args loc := by
  have hword : ∀ f : Fragment,
      ((f.rename σ false).word?.bind fun x => (w.unit.resource? x).bind fun r => some r.2) =
        f.word?.bind fun x => (w.unit.resource? x).bind fun r => some r.2 := by
    intro f
    rw [word?_rename]
    cases f.word? with
    | none => rfl
    | some x => exact congrArg (Option.bind · fun r => some r.2) (h.resource? x)
  have hsame : ∀ i, CallSite.Same ⟨w.unit, name, i, args, source, loc⟩
      ⟨w.unit, name, i, args, renameArgs σ source, loc⟩ := by
    refine fun i => ⟨rfl, fun position => ?_⟩
    simp only [CallSite.resource?, getElem?_renameArgs, Option.bind_eq_bind]
    rcases source[position]? with _ | _ | ⟨f, fs⟩
    · rfl
    · rfl
    · simpa [renameList] using hword f
  have hintrinsic : ∀ i, w.intrinsic ⟨w.unit, name, i, args, renameArgs σ source, loc⟩ =
      w.intrinsic ⟨w.unit, name, i, args, source, loc⟩ := by
    intro i
    unfold Writer.intrinsic
    simp only [h.access _ _ (hsame i)]
    rfl
  unfold Writer.call
  simp only [hintrinsic]

theorem token (h : w.Overlooks σ) (dot : Bool) (x : String) :
    w.token dot (.word (if dot then x else σ x)) = w.token dot (.word x) := by
  cases dot with
  | true => rfl
  | false => exact congrArg Piece.word (h.word x)

mutual
theorem fragment (h : w.Overlooks σ) (loopIndex : Option String) (dot : Bool) (f : Fragment) :
    w.fragment loopIndex dot (f.rename σ dot) = w.fragment loopIndex dot f := by
  cases f with
  | token t =>
    obtain ⟨token, loc⟩ := t
    cases token with
    | word x => simp only [rename, Writer.fragment, h.token dot x]
    | _ => simp only [rename]
  | call name args loc =>
    unfold rename Writer.fragment
    simp only [arguments h loopIndex args, h.call]
  | ret args loc =>
    cases args with
    | nil => simp only [rename, renameArgs]
    | cons value more =>
      simp only [rename, renameArgs, Writer.fragment,
        fragments h loopIndex false value]
  | initMain | branch => simp only [rename]

theorem fragments (h : w.Overlooks σ) (loopIndex : Option String) (dot : Bool)
    (fs : List Fragment) :
    w.fragments loopIndex dot (renameList σ dot fs) = w.fragments loopIndex dot fs := by
  cases fs with
  | nil => simp only [renameList]
  | cons f fs =>
    have hdot : (f.rename σ dot).isDelimiter .dot = f.isDelimiter .dot := by
      rcases f with ⟨token, loc⟩ | _ | _ | _ | _
      · cases token <;> rfl
      all_goals rfl
    simp only [renameList, Writer.fragments, fragment h loopIndex dot f, hdot,
      fragments h loopIndex (f.isDelimiter .dot) fs]

theorem arguments (h : w.Overlooks σ) (loopIndex : Option String) (args : List (List Fragment)) :
    w.arguments loopIndex (renameArgs σ args) = w.arguments loopIndex args := by
  cases args with
  | nil => simp only [renameArgs]
  | cons arg args =>
    simp only [renameArgs, Writer.arguments, fragments h loopIndex false arg,
      arguments h loopIndex args]
end

end Overlooks
end Writer

/-- Wherever fragments are written, the names of a unit can be replaced by their spellings. -/
theorem ShaderUnit.pieces_spelled {u : ShaderUnit} (h : u.Separate) (options : EmitOptions)
    (role : Role) (loopIndex : Option String) (fs : List Fragment) :
    (u.writer options role).pieces loopIndex (renameList u.spelled false fs) =
      (u.writer options role).pieces loopIndex fs := by
  have haccess : ∀ c c' : CallSite, c.Same c' → (u.language options).access c' =
      (u.language options).access c := by
    intro c c' hsame
    unfold language
    cases u.target with
    | direct3d12 => exact hsame.access_hlsl
    | vulkan => exact hsame.access_glsl
    | metal => exact hsame.access_msl
  have hoverlooks : (u.writer options role).Overlooks u.spelled :=
    ⟨word_spelled h, resource?_spelled h, haccess⟩
  exact hoverlooks.fragments loopIndex false fs

end ShaderDialect
