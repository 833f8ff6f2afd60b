import ShaderDialect.Proofs.Build.Rebuild

/-! What is generated for a target, told before anything is written: the files, in parts that are
listed together, and the answer or failure that comes after them. Building a target carries its plan
out. -/
namespace ShaderDialect
open FileTree List

abbrev Files := List (Path × List UInt8)

/-- Files in parts, each of which is listed as soon as all of it is in place, and what comes
then. -/
structure Plan (α : Type) where
  parts : List Files
  answer : Except Failure α

namespace Plan
variable {α β : Type}

instance : Monad Plan where
  pure a := ⟨[], .ok a⟩
  bind x f :=
    match x.answer with
    | .ok a => ⟨x.parts ++ (f a).parts, (f a).answer⟩
    | .error e => ⟨x.parts, .error e⟩

def ofAnswer (answer : Except Failure α) : Plan α := ⟨[], answer⟩

def write (fs : Files) : Plan Unit := ⟨[fs], .ok ()⟩

def files (x : Plan α) : Files := x.parts.flatten

/-- All files of a plan are put at certain paths. -/
def Within (P : Path → Prop) (x : Plan α) : Prop := ∀ f ∈ x.files, P f.1

variable {P : Path → Prop}

theorem within_pure (a : α) : (pure a : Plan α).Within P := by
  intro f hf
  simp [files, pure] at hf

theorem within_ofAnswer (answer : Except Failure α) : (ofAnswer answer).Within P := by
  intro f hf
  simp [files, ofAnswer] at hf

theorem within_write {fs : Files} (h : ∀ f ∈ fs, P f.1) : (write fs).Within P := by
  intro f hf
  exact h f (by simpa [files, write] using hf)

theorem within_bind {x : Plan α} {g : α → Plan β} (hx : x.Within P) (hg : ∀ a, (g a).Within P) :
    (x >>= g).Within P := by
  intro f hf
  simp only [files, bind] at hf
  split at hf
  · next a _ =>
    rcases mem_append.1 (flatten_append ▸ hf) with hf | hf
    · exact hx f hf
    · exact hg a f hf
  · exact hx f hf

theorem within_foldlM {g : α → β → Plan α} {bs : List β} (hg : ∀ a, ∀ b ∈ bs, (g a b).Within P)
    (a : α) : (bs.foldlM g a).Within P := by
  induction bs generalizing a with
  | nil => exact within_pure a
  | cons b bs ih =>
    exact within_bind (hg a b mem_cons_self) fun a =>
      ih (fun a b hb => hg a b (mem_cons_of_mem _ hb)) a

theorem within_forM {g : β → Plan Unit} {bs : List β} (hg : ∀ b ∈ bs, (g b).Within P) :
    (bs.forM g).Within P := by
  induction bs with
  | nil => exact within_pure ()
  | cons b bs ih =>
    rw [forall_mem_cons] at hg
    exact within_bind hg.1 fun _ => ih hg.2

end Plan

/-- What the names of the files end in that are written for targets. -/
def targetEndings : List String := [".hlsl", ".glsl", ".metal", ".meta.json", ".fslv"]

/-- What the names of the files end in that describe tables. -/
def tableEndings : List String := [".srt.json", ".srt.h"]

namespace Path

def EndsIn (p : Path) (endings : List String) : Prop :=
  ∃ stem, ∃ ending ∈ endings, p.Named (stem ++ ending)

variable {p q : Path} {endings : List String}

theorem EndsIn.isArtifact (h : p.EndsIn endings) (hs : endings ⊆ artifactEndings) :
    p.IsArtifact := by
  obtain ⟨stem, ending, hm, hn⟩ := h
  exact ⟨stem, ending, hs hm, hn⟩

theorem endsIn_joinName (dir : Path) (stem : String) {ending : String} (h : ending ∈ endings)
    (hs : endings ⊆ artifactEndings) : (dir.joinName (stem ++ ending)).EndsIn endings := by
  have hall : ∀ e ∈ artifactEndings, '/' ∉ e.toList ∧ 3 ≤ e.length := by decide
  obtain ⟨hslash, hlength⟩ := hall ending (hs h)
  obtain ⟨s, hn⟩ := named_joinName dir stem hslash hlength
  exact ⟨s, ending, h, hn⟩

/-- No file of a target is where a table is described. -/
theorem keyOf_ne_of_endsIn (hp : p.EndsIn targetEndings) (hq : q.EndsIn tableEndings)
    (t : FileTree) : t.keyOf p ≠ t.keyOf q := by
  have hall : ∀ e ∈ targetEndings, ∀ e' ∈ tableEndings,
      ¬ e.toList <:+ e'.toList ∧ ¬ e'.toList <:+ e.toList := by decide
  obtain ⟨stem, ending, hm, hn⟩ := hp
  obtain ⟨stem', ending', hm', hn'⟩ := hq
  obtain ⟨hleft, hright⟩ := hall ending hm ending' hm'
  obtain ⟨k, hk⟩ := hn.keyOf t
  obtain ⟨k', hk'⟩ := hn'.keyOf t
  rw [hk, hk']
  intro he
  have hlast : stem ++ ending = stem' ++ ending' :=
    singleton_inj.1 (append_inj' he (by simp)).2
  have hsuffix : ending.toList <:+ (stem' ++ ending').toList := by
    rw [← hlast, String.toList_append]
    exact suffix_append _ _
  have hsuffix' : ending'.toList <:+ (stem' ++ ending').toList := by
    rw [String.toList_append]
    exact suffix_append _ _
  rcases suffix_or_suffix_of_suffix hsuffix hsuffix' with h | h
  · exact hleft h
  · exact hright h

end Path

namespace FileTree
variable {content : List UInt8}

/-- Puts a file in place; a tree that refuses it stays as it is. -/
@[irreducible] def attempt (t : FileTree) (p : Path) (content : List UInt8) :
    Except Failure Unit × FileTree :=
  match t.place p content with
  | .ok t => (.ok (), t)
  | .error e => (.error e, t)

variable {p : Path}

theorem attempt_of_ok {t t' : FileTree} (h : t.place p content = .ok t') :
    t.attempt p content = (.ok (), t') := by
  delta attempt
  rw [h]

theorem attempt_of_error {t : FileTree} {e : Failure} (h : t.place p content = .error e) :
    t.attempt p content = (.error e, t) := by
  delta attempt
  rw [h]

def placeEach : FileTree → Files → Except Failure Unit × FileTree
  | t, [] => (.ok (), t)
  | t, f :: fs =>
    match t.attempt f.1 f.2 with
    | (.ok (), t) => t.placeEach fs
    | (.error e, t) => (.error e, t)

/-- Puts parts in place until a file is refused, and lists those that are complete. -/
def placeParts : FileTree → List Files → List Path → Except Failure Unit × FileTree × List Path
  | t, [], listed => (.ok (), t, listed)
  | t, part :: parts, listed =>
    match t.placeEach part with
    | (.ok (), t) => t.placeParts parts (listed ++ part.map Prod.fst)
    | (.error e, t) => (.error e, t, listed)

theorem placeParts_append (t : FileTree) (parts parts' : List Files) (listed : List Path) :
    t.placeParts (parts ++ parts') listed =
      match t.placeParts parts listed with
      | (.ok (), t, listed) => t.placeParts parts' listed
      | (.error e, t, listed) => (.error e, t, listed) := by
  induction parts generalizing t listed with
  | nil => rfl
  | cons part parts ih =>
    rw [cons_append, placeParts, placeParts]
    rcases t.placeEach part with ⟨_ | _, t₁⟩
    · rfl
    · exact ih t₁ _

/-- Some of the files have been put in place. -/
def PlacesSome (t : FileTree) (fs : Files) (t' : FileTree) : Prop :=
  ∃ gs ⊆ fs, t.placeAll gs = .ok t'

section Placing
variable {t t₁ t' : FileTree} {fs gs : Files}

theorem placesSome_nil : t.PlacesSome fs t := ⟨[], nil_subset _, placeAll_nil.2 rfl⟩

theorem placesSome_of_placeAll (h : t.placeAll fs = .ok t') : t.PlacesSome fs t' :=
  ⟨fs, List.Subset.refl _, h⟩

theorem PlacesSome.append (h : t.PlacesSome fs t₁) (h' : t₁.PlacesSome gs t') :
    t.PlacesSome (fs ++ gs) t' := by
  obtain ⟨as, has, h⟩ := h
  obtain ⟨bs, hbs, h'⟩ := h'
  exact ⟨as ++ bs, append_subset.2 ⟨subset_append_of_subset_left _ has,
    subset_append_of_subset_right _ hbs⟩, placeAll_append.2 ⟨t₁, h, h'⟩⟩

/-- Files that are put in place until one is refused are all in place, or there is no placing
all. -/
theorem placeEach_cases (t : FileTree) (fs : Files) :
    (∃ t', t.placeAll fs = .ok t' ∧ t.placeEach fs = (.ok (), t')) ∨
      ∃ e t', (∀ u, t.placeAll fs ≠ .ok u) ∧ t.PlacesSome fs t' ∧
        t.placeEach fs = (.error e, t') := by
  induction fs generalizing t with
  | nil => exact .inl ⟨t, placeAll_nil.2 rfl, rfl⟩
  | cons f fs ih =>
    rw [placeEach]
    cases hp : t.place f.1 f.2 with
    | error e =>
      refine .inr ⟨e, t, fun u hu => ?_, placesSome_nil, by rw [attempt_of_error hp]⟩
      obtain ⟨t₁, h₁, -⟩ := placeAll_cons.1 hu
      cases hp.symm.trans h₁
    | ok t₁ =>
      rw [attempt_of_ok hp]
      rcases ih t₁ with ⟨t', hall, heach⟩ | ⟨e, t', hnot, ⟨gs, hgs, hsome⟩, heach⟩
      · exact .inl ⟨t', placeAll_cons.2 ⟨t₁, hp, hall⟩, heach⟩
      · refine .inr ⟨e, t', fun u hu => ?_, ⟨f :: gs, cons_subset_cons f hgs, ?_⟩, heach⟩
        · obtain ⟨t₂, h₂, h⟩ := placeAll_cons.1 hu
          cases hp.symm.trans h₂
          exact hnot u h
        · exact placeAll_cons.2 ⟨t₁, hp, hsome⟩

theorem ne_of_placeAll_append (h : t.placeAll fs = .ok t₁) (hnot : ∀ u, t₁.placeAll gs ≠ .ok u)
    (u : FileTree) : t.placeAll (fs ++ gs) ≠ .ok u := by
  intro hu
  obtain ⟨t₂, h₂, h'⟩ := placeAll_append.1 hu
  cases h.symm.trans h₂
  exact hnot u h'

theorem placeParts_cases (t : FileTree) (parts : List Files) (listed : List Path) :
    (∃ t', t.placeAll parts.flatten = .ok t' ∧
      t.placeParts parts listed = (.ok (), t', listed ++ parts.flatten.map Prod.fst)) ∨
    ∃ e t' listed', (∀ u, t.placeAll parts.flatten ≠ .ok u) ∧ t.PlacesSome parts.flatten t' ∧
      t.placeParts parts listed = (.error e, t', listed') := by
  induction parts generalizing t listed with
  | nil => exact .inl ⟨t, placeAll_nil.2 rfl, by simp [placeParts]⟩
  | cons part parts ih =>
    rw [placeParts, flatten_cons]
    rcases t.placeEach_cases part with
      ⟨t₁, hall, heach⟩ | ⟨e, t', hnot, hsome, heach⟩ <;> rw [heach]
    · rcases ih t₁ (listed ++ part.map Prod.fst) with
        ⟨t', h, hparts⟩ | ⟨e, t', listed', hnot, hsome, hparts⟩
      · exact .inl ⟨t', placeAll_append.2 ⟨t₁, hall, h⟩, by simp [hparts]⟩
      · exact .inr ⟨e, t', listed', ne_of_placeAll_append hall hnot,
          (placesSome_of_placeAll hall).append hsome, hparts⟩
    · refine .inr ⟨e, t', listed, fun u hu => ?_, hsome.append placesSome_nil, rfl⟩
      obtain ⟨t₁, h₁, -⟩ := placeAll_append.1 hu
      exact hnot t₁ h₁

end Placing

end FileTree

namespace Building
variable {α β : Type}

/-- Work that carries a plan out, in a build that has just been started. -/
def Carries (x : Building α) (plan : Plan α) : Prop :=
  ∀ t r as, x.after ⟨.ofTree t, r, as⟩ =
    match t.placeParts plan.parts as with
    | (.ok (), t, as) => (plan.answer, ⟨.ofTree t, r, as⟩)
    | (.error e, t, as) => (.error e, ⟨.ofTree t, r, as⟩)

theorem carries_pure (a : α) : Carries (pure a) (pure a) := fun _ _ _ => rfl

theorem carries_lift (answer : Except Failure α) :
    Carries (ExceptT.mk (pure answer)) (.ofAnswer answer) := fun _ _ _ => rfl

theorem carries_bind {x : Building α} {f : α → Building β} {plan : Plan α} {plans : α → Plan β}
    (hx : Carries x plan) (hf : ∀ a, Carries (f a) (plans a)) :
    Carries (x >>= f) (plan >>= plans) := by
  intro t r as
  rw [after_bind, hx t r as]
  obtain ⟨parts, answer⟩ := plan
  cases answer with
  | error e =>
    simp only [bind]
    rcases t.placeParts parts as with ⟨_ | _, t₁, as₁⟩ <;> rfl
  | ok a =>
    simp only [bind, placeParts_append]
    rcases t.placeParts parts as with ⟨_ | _, t₁, as₁⟩
    · rfl
    · exact hf a t₁ r as₁

theorem carries_foldlM {f : α → β → Building α} {plans : α → β → Plan α}
    (hf : ∀ a b, Carries (f a b) (plans a b)) (bs : List β) (a : α) :
    Carries (bs.foldlM f a) (bs.foldlM plans a) := by
  induction bs generalizing a with
  | nil => exact carries_pure a
  | cons b bs ih => exact carries_bind (hf a b) ih

theorem carries_forM {f : β → Building Unit} {plans : β → Plan Unit}
    (hf : ∀ b, Carries (f b) (plans b)) (bs : List β) : Carries (bs.forM f) (bs.forM plans) := by
  induction bs with
  | nil => exact carries_pure ()
  | cons b bs ih => exact carries_bind (hf b) fun _ => ih

end Building

namespace Builder

open Building

theorem after_forM_place_eq (t : FileTree) (r : FileReport) (as : List Path) (fs : Files) :
    (fs.forM fun f => place f.1 f.2).after ⟨.ofTree t, r, as⟩ =
      ((t.placeEach fs).1, ⟨.ofTree (t.placeEach fs).2, r, as⟩) := by
  induction fs generalizing t with
  | nil => rfl
  | cons f fs ih =>
    rw [after_forM_cons, after_place, placeEach]
    cases hp : t.place f.1 f.2 with
    | error e => rw [attempt_of_error hp]
    | ok t₁ =>
      rw [attempt_of_ok hp]
      exact ih t₁

theorem carries_write (fs : Files) : Carries (write fs) (.write fs) := by
  intro t r as
  rw [write, after_bind, after_forM_place_eq]
  simp only [Plan.write, placeParts]
  rcases t.placeEach fs with ⟨_ | _, t₁⟩ <;> rfl

theorem carries_checkCancelled : Carries checkCancelled (pure ()) := fun _ _ _ => rfl

section Targets
variable (b : Builder) (f : ShaderFile) (target : Target)

/-- The source of an output and its description, and the container with the variant. -/
def planVariant (c : VariantContainer) (o : Output) : Plan VariantContainer := do
  let options := (b.config.options target).emitOptions
  let shader ← Plan.ofAnswer (f.shader b.config.signatures options o target)
  let stem := variantStem o.name o.features
  Plan.write
    [((b.targetDir target).joinName s!"{stem}.{target.sourceExtension}", Text.utf8 shader.source),
      ((b.targetDir target).joinName s!"{stem}.meta.json", Text.utf8 shader.info.toJson.pretty)]
  Plan.ofAnswer
    ((c.insert ⟨target, o.features, Text.utf8 shader.source⟩).mapError Failure.container)

/-- The outputs of one name, with their container unless there is only one, without features. -/
def planGroup (name : String) (os : List Output) : Plan Unit := do
  let container ← os.foldlM (b.planVariant f target) .empty
  match os with
  | [o] =>
    if o.features.isEmpty then pure ()
    else Plan.write [((b.targetDir target).joinName s!"{name}.fslv", container.toBytes)]
  | _ => Plan.write [((b.targetDir target).joinName s!"{name}.fslv", container.toBytes)]

def planTarget (os : List Output) : Plan Unit :=
  (Text.nameSet (os.map Output.name)).forM fun name =>
    b.planGroup f target name (os.filter (·.name == name))

variable {b} {f} {target}

theorem carries_buildVariant (hc : b.config.compile = false) (c : VariantContainer) (o : Output) :
    Carries (b.buildVariant f target c o) (b.planVariant f target c o) := by
  simp only [buildVariant, hc, Bool.false_eq_true, if_false, pure_bind, write_two]
  change Carries _ (pure () >>= fun _ => b.planVariant f target c o)
  refine carries_bind carries_checkCancelled fun _ => ?_
  refine carries_bind (carries_lift _) fun shader => carries_bind (carries_write _) fun _ => ?_
  cases c.insert ⟨target, o.features, Text.utf8 shader.source⟩ with
  | error e => exact carries_lift (.error (.container e))
  | ok c => exact carries_pure c

theorem carries_buildGroup (hc : b.config.compile = false) (name : String) (os : List Output) :
    Carries (b.buildGroup f target name os) (b.planGroup f target name os) := by
  unfold buildGroup
  refine carries_bind (carries_foldlM (carries_buildVariant hc) os .empty) fun container => ?_
  have hbinary :
      ∀ x : Building Unit, (if b.config.compile = true then x else pure ()) = pure () := by
    simp [hc]
  have hcontainer : Carries (do
      place ((b.targetDir target).joinName s!"{name}.fslv") container.toBytes
      addArtifacts [(b.targetDir target).joinName s!"{name}.fslv"])
      (Plan.write [((b.targetDir target).joinName s!"{name}.fslv", container.toBytes)]) := by
    rw [write_one]
    exact carries_write _
  simp only [hbinary]
  rcases os with _ | ⟨o, _ | ⟨_, _⟩⟩
  · exact hcontainer
  · by_cases ho : o.features.isEmpty = true
    · simp only [ho, if_true]
      exact carries_pure ()
    · simp only [ho]
      exact hcontainer
  · exact hcontainer

theorem carries_buildTarget (hc : b.config.compile = false) (os : List Output) :
    Carries (b.buildTarget f os target) (b.planTarget f target os) :=
  carries_forM (fun _ => carries_buildGroup hc _ _) _

theorem within_planVariant (c : VariantContainer) (o : Output) :
    (b.planVariant f target c o).Within (·.EndsIn targetEndings) := by
  have hsource : "." ++ target.sourceExtension ∈ targetEndings := by cases target <;> decide
  have hinfo : ".meta.json" ∈ targetEndings := by decide
  refine Plan.within_bind (Plan.within_ofAnswer _) fun shader =>
    Plan.within_bind (Plan.within_write ?_) fun _ => Plan.within_ofAnswer _
  simp only [forall_mem_cons, not_mem_nil, false_implies, implies_true, and_true]
  refine ⟨?_, Path.endsIn_joinName _ _ hinfo (by decide)⟩
  have hpath := Path.endsIn_joinName (b.targetDir target) (variantStem o.name o.features) hsource
    (by decide)
  rwa [← String.append_assoc] at hpath

theorem within_planGroup (name : String) (os : List Output) :
    (b.planGroup f target name os).Within (·.EndsIn targetEndings) := by
  have hending : ".fslv" ∈ targetEndings := by decide
  refine Plan.within_bind (Plan.within_foldlM (fun c o _ => within_planVariant c o) _)
    fun container => ?_
  have hcontainer : (Plan.write [((b.targetDir target).joinName s!"{name}.fslv",
      container.toBytes)]).Within (·.EndsIn targetEndings) := by
    have hpath := Path.endsIn_joinName (b.targetDir target) name hending (by decide)
    exact Plan.within_write fun file hfile => mem_singleton.1 hfile ▸ hpath
  split
  · split
    · exact Plan.within_pure _
    · exact hcontainer
  · exact hcontainer

theorem within_planTarget (os : List Output) :
    (b.planTarget f target os).Within (·.EndsIn targetEndings) :=
  Plan.within_forM fun _ _ => within_planGroup _ _

end Targets
end Builder
end ShaderDialect
