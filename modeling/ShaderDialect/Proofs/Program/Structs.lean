import ShaderDialect.Proofs.Program.Entries

/-! Structs as they are read: every field holds something, whatever branch or block it stands in,
and so does every field that an output sees. -/
namespace ShaderDialect
open List

/-- A matrix is made of its columns; every other type counts as one. -/
def ValueType.columns : ValueType → Nat
  | matrix _ columns _ => columns
  | _ => 1

/-- As many elements as something that is declared may have. -/
def Admissible (length : Nat) : Prop := 0 < length ∧ length ≤ Reader.maxArrayLength

/-- The field has elements, but not too many, and they have columns. -/
def Field.Solid (f : Field) : Prop := Admissible (f.length.getD 1) ∧ 0 < f.type.columns

namespace ValueType

theorem two_le_of_extent? {c : Char} {n : Nat} (h : extent? c = some n) : 2 ≤ n := by
  unfold extent? at h
  split at h <;> cases h <;> decide

theorem columns_shaped? {s : Scalar} {cs : List Char} {t : ValueType} (h : shaped? s cs = some t) :
    0 < t.columns := by
  unfold shaped? at h
  split at h
  · cases h
    exact Nat.one_pos
  · obtain ⟨n, -, rfl⟩ := Option.map_eq_some_iff.1 h
    exact Nat.one_pos
  · split at h
    · split at h
      · next hc _ =>
        cases h
        exact Nat.zero_lt_two.trans_le (two_le_of_extent? hc)
      · cases h
    · cases h
  · cases h

theorem columns_ofName (name : String) : 0 < (ofName name).columns := by
  rw [ofName]
  cases hb : builtin? name with
  | none => exact Nat.one_pos
  | some t =>
    rw [builtin?] at hb
    split at hb
    · cases hb
      exact Nat.one_pos
    · split at hb
      · cases hb
        exact Nat.one_pos
      · split at hb
        · cases hb
          exact Nat.one_pos
        · split at hb
          · exact columns_shaped? hb
          · cases hb

end ValueType

namespace StructMember
variable {ms : List StructMember}

mutual
def fields : StructMember → List Field
  | field f => [f]
  | branch _ yes no => fieldsList yes ++ fieldsList no

def fieldsList : List StructMember → List Field
  | [] => []
  | m :: ms => m.fields ++ fieldsList ms
end

mutual
theorem mem_fields_of_mem_select {defined : String → Bool} {f : Field} (m : StructMember)
    (h : f ∈ m.select defined) : f ∈ m.fields := by
  cases m with
  | field g => simpa [select, fields] using h
  | branch cond yes no =>
    rw [select] at h
    rw [fields, mem_append]
    split at h
    · exact .inl (mem_fieldsList_of_mem_selectMembers yes h)
    · exact .inr (mem_fieldsList_of_mem_selectMembers no h)

theorem mem_fieldsList_of_mem_selectMembers {defined : String → Bool} {f : Field}
    (ms : List StructMember) (h : f ∈ selectMembers defined ms) : f ∈ fieldsList ms := by
  cases ms with
  | nil => simp [selectMembers] at h
  | cons m ms =>
    rw [selectMembers, mem_append] at h
    rw [fieldsList, mem_append]
    rcases h with h | h
    · exact .inl (mem_fields_of_mem_select m h)
    · exact .inr (mem_fieldsList_of_mem_selectMembers ms h)
end

def Solid (ms : List StructMember) : Prop := ∀ f ∈ fieldsList ms, f.Solid

theorem solid_cons {m : StructMember} : Solid (m :: ms) ↔ (∀ f ∈ m.fields, f.Solid) ∧ Solid ms := by
  simp [Solid, fieldsList, or_imp, forall_and]

theorem solid_branch {cond : Condition} {yes no : List StructMember} (hyes : Solid yes)
    (hno : Solid no) : ∀ f ∈ (branch cond yes no).fields, f.Solid := by
  intro f hf
  rw [fields, mem_append] at hf
  exact hf.elim (hyes f) (hno f)

end StructMember

namespace Item

theorem mem_nestedList {j : Item} {is : List Item} :
    j ∈ nestedList is ↔ ∃ i ∈ is, j ∈ i.nested := by
  induction is with
  | nil => simp [nestedList]
  | cons i is ih => simp [nestedList, ih]

mutual
theorem mem_nested_of_mem_select {defined : String → Bool} {j : Item} (i : Item)
    (h : j ∈ i.select defined) : j ∈ i.nested := by
  cases i with
  | branch cond yes no loc =>
    rw [select] at h
    rw [nested, mem_cons, mem_append]
    split at h
    · exact .inr (.inl (mem_nestedList_of_mem_selectList yes h))
    · exact .inr (.inr (mem_nestedList_of_mem_selectList no h))
  | _ => simp_all [select, nested]

theorem mem_nestedList_of_mem_selectList {defined : String → Bool} {j : Item} (is : List Item)
    (h : j ∈ selectList defined is) : j ∈ nestedList is := by
  cases is with
  | nil => simp [selectList] at h
  | cons i is =>
    rw [selectList, mem_append] at h
    rw [nestedList, mem_append]
    rcases h with h | h
    · exact .inl (mem_nested_of_mem_select i h)
    · exact .inr (mem_nestedList_of_mem_selectList is h)
end

end Item

namespace Reader
variable {ms : List StructMember} {c c' : Cursor}

theorem length_of_nameArgument {loc : Loc} {arg : List Placed} {name : String} {length : Option Nat}
    (h : Reads (nameArgument loc arg) c (name, length) c') : Admissible (length.getD 1) := by
  unfold nameArgument at h
  split at h
  · obtain ⟨heq, -⟩ := reads_pure.1 h
    cases heq
    exact ⟨Nat.one_pos, by decide⟩
  · split at h
    · split at h
      · simp at h
      · next hle =>
        split at h
        · simp at h
        · next hn =>
          obtain ⟨heq, -⟩ := reads_pure.1 h
          cases heq
          exact ⟨Nat.pos_of_ne_zero hn, Nat.le_of_not_lt hle⟩
    · simp at h
  · simp at h
  · simp at h

theorem solid_members {fuel : Nat} (h : Reads (members fuel) c ms c') : StructMember.Solid ms := by
  induction fuel generalizing ms c c' with
  | zero => simp [members] at h
  | succ fuel ih =>
    have hnil : StructMember.Solid [] := by simp [StructMember.Solid, StructMember.fieldsList]
    obtain ⟨c₀, c₁, hget, hread⟩ := reads_bind.1 h
    obtain ⟨rfl, rfl⟩ := reads_get.1 hget
    split at hread
    · exact (reads_pure.1 hread).1 ▸ hnil
    · split at hread
      · exact (reads_pure.1 hread).1 ▸ hnil
      · split at hread
        · obtain ⟨⟨cond, yes, no, _⟩, c₂, hcond, hrest⟩ := reads_bind.1 (reads_skip_bind.1 hread)
          obtain ⟨more, c₃, hmore, hpure⟩ := reads_bind.1 hrest
          obtain ⟨rfl, -⟩ := reads_pure.1 hpure
          obtain ⟨-, hyes, hno⟩ := (readsConditional_of_reads hcond).forall_branches (fun _ => True)
            StructMember.Solid trivial hnil id
            (fun _ _ _ _ hyes hno => StructMember.solid_cons.2
              ⟨StructMember.solid_branch hyes hno, hnil⟩)
            (fun hbranch _ => by
              obtain ⟨more, _, hmore, hpure⟩ := reads_bind.1 hbranch
              cases (reads_pure.1 hpure).1
              exact ⟨trivial, ih hmore⟩)
          exact StructMember.solid_cons.2 ⟨StructMember.solid_branch hyes hno, ih hmore⟩
        · split at hread
          · exact (reads_pure.1 hread).1 ▸ hnil
          · simp at hread
      · simp only [reads_bind] at hread
        obtain ⟨⟨loc, args⟩, c₁, -, _, c₂, -, type, c₃, -, ⟨name, length⟩, c₄, hname,
          semantic, c₅, -, _, c₆, -, more, c₇, hmore, hpure⟩ := hread
        obtain ⟨rfl, -⟩ := reads_pure.1 hpure
        refine StructMember.solid_cons.2 ⟨fun f hf => ?_, ih hmore⟩
        obtain rfl := mem_singleton.1 hf
        exact ⟨length_of_nameArgument hname, ValueType.columns_ofName type⟩
      · simp at hread

theorem solid_struct {d : StructDecl} (h : Reads struct c d c') :
    StructMember.Solid d.members := by
  simp only [struct, withFuel, reads_bind] at h
  obtain ⟨_, _, -, _, _, -, _, _, -, _, _, -, ms, _, ⟨_, _, -, hms⟩, _, _, -, _, _, -, hpure⟩ := h
  obtain ⟨rfl, -⟩ := reads_pure.1 hpure
  exact solid_members hms

end Reader

/-- All fields of the structs of a program hold something. -/
theorem Program.solid_of_read {file : String} {tokens : List Placed} {p : Program}
    (h : Program.read file tokens = .ok p) (d : StructDecl) (hd : .struct d ∈ p.allItems) :
    StructMember.Solid d.members := by
  refine forall_allItems (P := fun i => ∀ d, i = .struct d → StructMember.Solid d.members)
    (fun _ hread d hd => ?_) (by simp) (by simp) (by simp) h _ hd d rfl
  cases hread with
  | struct hstruct =>
    obtain rfl : _ = d := by simpa [Declaration.item] using hd
    exact Reader.solid_struct hstruct
  | _ => simp [Declaration.item] at hd

namespace Selection
variable {i : Item} {file fileName : String} {tokens : List Placed} {outputs : List Output}
  {p : Program} {o : Output} {target : Target} {s s' : Selection}

theorem mem_structs_add {scope : String} {defined : String → Bool}
    (h : s.add scope defined i = .ok s') {d : StructDef} (hd : d ∈ s'.structs) :
    d ∈ s.structs ∨ ∃ d', i = .struct d' ∧ d.fields = selectMembers defined d'.members := by
  cases i with
  | struct d' =>
    simp only [add] at h
    split at h
    · cases h
    · cases h
      rcases mem_append.1 hd with hd | hd
      · exact .inl hd
      · obtain rfl := mem_singleton.1 hd
        exact .inr ⟨d', rfl, rfl⟩
  | function f =>
    simp only [add] at h
    split at h
    · cases h
    · cases h
      exact .inl hd
  | table d' =>
    simp only [add, Except.ok.injEq] at h
    subst h
    split at hd <;> exact .inl hd
  | entry | global | sharedSet | branch | block =>
    cases h
    exact .inl hd

theorem mem_nestedList_of_mem_items (houtputs : p.outputs fileName = .ok outputs) (ho : o ∈ outputs)
    (hi : i ∈ Item.nestedList (items p o)) : i ∈ Item.nestedList p.items := by
  obtain ⟨j, hj, hi⟩ := Item.mem_nestedList.1 hi
  rw [items, mem_append] at hj
  rcases hj with hj | hj
  · exact Item.mem_nestedList.2 ⟨j, (mem_filter.1 hj).1, hi⟩
  · cases hblock : o.block with
    | none => simp [hblock] at hj
    | some is =>
      obtain ⟨stage, features, name, loc, hmem⟩ := block_of_mem_outputs houtputs ho hblock
      refine Item.mem_nestedList.2 ⟨_, hmem, ?_⟩
      rw [Item.nested]
      exact mem_cons_of_mem _ (Item.mem_nestedList.2 ⟨j, by simpa [hblock] using hj, hi⟩)

theorem solid_structs (hp : Program.read file tokens = .ok p)
    (houtputs : p.outputs fileName = .ok outputs) (ho : o ∈ outputs)
    (h : ofOutput p o target = .ok s) : ∀ d ∈ s.structs, ∀ f ∈ d.fields, f.Solid := by
  simp only [ofOutput, Success.bind_eq_ok] at h
  obtain ⟨s₀, hfold, h⟩ := h
  have hsolid :=
    Success.foldlM_induction (fun _ s => ∀ d ∈ s.structs, ∀ f ∈ d.fields, f.Solid) hfold
    (by simp [empty]) fun _ i s s' hi hs hadd d hd => by
      rcases mem_structs_add hadd hd with hd | ⟨d', rfl, hfields⟩
      · exact hs d hd
      · have hmem := mem_nestedList_of_mem_items houtputs ho
          (Item.mem_nestedList_of_mem_selectList _ hi)
        intro f hf
        rw [hfields] at hf
        exact Program.solid_of_read hp d' hmem f
          (StructMember.mem_fieldsList_of_mem_selectMembers _ hf)
  cases hblock : o.block with
  | some is =>
    simp only [hblock, Success.pure_eq_ok] at h
    exact h ▸ hsolid
  | none =>
    simp only [hblock, Success.pure_eq_ok] at h
    exact h ▸ hsolid

end Selection
end ShaderDialect
