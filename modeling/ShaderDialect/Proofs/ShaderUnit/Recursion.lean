import ShaderDialect.Proofs.ShaderUnit.Reach

/-! The search for helpers with no bound on its depth. It comes to an end for every set of
functions, and fails exactly if functions that it reaches call each other in a circle. -/
namespace ShaderDialect.Helpers

open List Relation

section
variable (scope : String) (fs : List Function)

/-- How the search goes on when a function is under way, with the callees that are left and the
functions that have been found, and what it comes to. -/
inductive Search : (underWay : List String) → (f : Function) → (callees found : List Function) →
    Except Failure (List Function) → Prop
  | done {underWay f found} : Search underWay f [] found (.ok found)
  | recursive {underWay f callee rest found} : callee.name ∈ f.name :: underWay →
      Search underWay f (callee :: rest) found
        (.error (.program scope (.recursion f.name callee.name)))
  | known {underWay f callee rest found result} : callee.name ∉ f.name :: underWay →
      callee.name ∈ found.map Function.name → Search underWay f rest found result →
      Search underWay f (callee :: rest) found result
  | stopped {underWay f callee rest found e} : callee.name ∉ f.name :: underWay →
      callee.name ∉ found.map Function.name →
      Search (f.name :: underWay) callee (callee.callees fs) found (.error e) →
      Search underWay f (callee :: rest) found (.error e)
  | explored {underWay f callee rest found found' result} : callee.name ∉ f.name :: underWay →
      callee.name ∉ found.map Function.name →
      Search (f.name :: underWay) callee (callee.callees fs) found (.ok found') →
      Search underWay f rest (found' ++ [callee]) result →
      Search underWay f (callee :: rest) found result

end

variable {scope : String} {fs callees found found' : List Function} {f g entry : Function}
  {underWay : List String} {result result' : Except Failure (List Function)}

theorem Search.unique (h : Search scope fs underWay f callees found result)
    (h' : Search scope fs underWay f callees found result') : result = result' := by
  induction h generalizing result' with
  | done =>
    cases h'
    rfl
  | recursive hmem =>
    cases h' with
    | recursive _ => rfl
    | known hnot _ _ | stopped hnot _ _ | explored hnot _ _ _ => exact absurd hmem hnot
  | known hnot hfound _ ih =>
    cases h' with
    | recursive hmem => exact absurd hmem hnot
    | known _ _ hrest => exact ih hrest
    | stopped _ hnew _ | explored _ hnew _ _ => exact absurd hfound hnew
  | stopped hnot hnew _ ih =>
    cases h' with
    | recursive hmem => exact absurd hmem hnot
    | known _ hfound _ => exact absurd hfound hnew
    | stopped _ _ hvisit => exact ih hvisit
    | explored _ _ hvisit _ => cases ih hvisit
  | explored hnot hnew _ _ ihvisit ihrest =>
    cases h' with
    | recursive hmem => exact absurd hmem hnot
    | known _ hfound _ => exact absurd hfound hnew
    | stopped _ _ hvisit => cases ihvisit hvisit
    | explored _ _ hvisit hrest =>
      cases ihvisit hvisit
      exact ihrest hrest

/-- The search comes to what a visit comes to. The fuel lasts, since functions under way differ. -/
theorem search_visit (hfs : (fs.map Function.name).Nodup) {fuel : Nat}
    (hchain : Chain fs (f.name :: underWay))
    (hfuel : fs.length + 1 < fuel + (f.name :: underWay).length) :
    Search scope fs underWay f (f.callees fs) found (visit scope fs fuel underWay f found) := by
  induction fuel generalizing underWay f found with
  | zero =>
    have := hchain.length_le
    omega
  | succ fuel ih =>
    have hcallees : ∀ callee ∈ f.callees fs, callee ∈ fs :=
      fun callee hcallee => ((Function.mem_callees hfs).1 hcallee).1
    rw [visit]
    generalize f.callees fs = callees at hcallees ⊢
    induction callees generalizing found with
    | nil => exact .done
    | cons callee rest ihrest =>
      rw [forall_mem_cons] at hcallees
      rw [foldlM_cons]
      by_cases hmem : callee.name ∈ f.name :: underWay
      · rw [if_pos (mem_cons.1 hmem)]
        exact .recursive hmem
      rw [if_neg (fun h => hmem (mem_cons.2 h))]
      by_cases hfound : callee.name ∈ found.map Function.name
      · have hany : found.any (·.name == callee.name) = true := by simpa using hfound
        rw [if_pos hany]
        exact .known hmem hfound (ihrest hcallees.2)
      · have hany : ¬ found.any (·.name == callee.name) = true := by simpa using hfound
        rw [if_neg hany]
        have hvisit : Search scope fs (f.name :: underWay) callee (callee.callees fs) found
            (visit scope fs fuel (f.name :: underWay) callee found) := by
          apply ih (hchain.push hcallees.1 hmem)
          simp only [length_cons] at hfuel ⊢
          omega
        cases hresult : visit scope fs fuel (f.name :: underWay) callee found with
        | error e => exact .stopped hmem hfound (hresult ▸ hvisit)
        | ok found' => exact .explored hmem hfound (hresult ▸ hvisit) (ihrest hcallees.2)

theorem search_iff (hfs : (fs.map Function.name).Nodup) :
    Search scope fs [] entry (entry.callees fs) [] result ↔ result = reached scope fs entry := by
  have hsearch : Search scope fs [] entry (entry.callees fs) [] (reached scope fs entry) :=
    search_visit hfs ⟨.nil, nil_subset _⟩ (by simp)
  constructor
  · intro h
    exact h.unique hsearch
  · rintro rfl
    exact hsearch

/-- A search that fails has come to a function that calls one under way, which leads back to it. -/
theorem Search.error_cycle (hfs : (fs.map Function.name).Nodup)
    (h : Search scope fs underWay f callees found result) (hcallees : ∀ c ∈ callees, f.Calls fs c)
    (hpath : ∀ g ∈ fs, g.name ∈ f.name :: underWay → g.Reaches fs f) {e : Failure}
    (he : result = .error e) :
    ∃ caller callee, e = .program scope (.recursion caller.name callee.name) ∧
      f.Reaches fs caller ∧ caller.Calls fs callee ∧ callee.Reaches fs caller := by
  have hnested : ∀ {underWay f c}, (∀ g ∈ fs, g.name ∈ f.name :: underWay → g.Reaches fs f) →
      f.Calls fs c → ∀ g ∈ fs, g.name ∈ c.name :: f.name :: underWay → g.Reaches fs c := by
    intro underWay f c hpath hcall g hg hname
    rcases mem_cons.1 hname with hname | hname
    · obtain rfl : g = c := inj_on_of_nodup_map hfs hg hcall.1 hname
      exact .refl
    · exact (hpath g hg hname).tail hcall
  have hdeeper : ∀ {f c g : Function}, f.Calls fs c → c.Reaches fs g → f.Reaches fs g :=
    fun hcall hreach => hreach.head hcall
  induction h with
  | done => cases he
  | @recursive underWay f callee rest found hmem =>
    have hcall := (forall_mem_cons.1 hcallees).1
    cases he
    exact ⟨f, callee, rfl, .refl, hcall, hpath callee hcall.1 hmem⟩
  | known _ _ _ ih => exact ih (forall_mem_cons.1 hcallees).2 hpath he
  | stopped _ _ _ ih =>
    have hcall := (forall_mem_cons.1 hcallees).1
    obtain ⟨caller, callee, he, hreach, hcycle⟩ :=
      ih (fun c hc => (Function.mem_callees hfs).1 hc) (hnested hpath hcall) he
    exact ⟨caller, callee, he, hdeeper hcall hreach, hcycle⟩
  | explored _ _ _ _ _ ih => exact ih (forall_mem_cons.1 hcallees).2 hpath he

theorem Search.reached_of_mem (hfs : (fs.map Function.name).Nodup)
    (h : Search scope fs underWay f callees found result) (hcallees : ∀ c ∈ callees, f.Calls fs c)
    (hresult : result = .ok found') :
    ∀ g ∈ found', g ∈ found ∨ TransGen (Function.Calls fs) f g := by
  induction h generalizing found' with
  | done =>
    cases hresult
    exact fun g hg => .inl hg
  | recursive _ => cases hresult
  | known _ _ _ ih => exact ih (forall_mem_cons.1 hcallees).2 hresult
  | stopped _ _ _ _ => cases hresult
  | explored _ _ _ _ ihvisit ihrest =>
    obtain ⟨hcall, hrest⟩ := forall_mem_cons.1 hcallees
    intro g hg
    rcases ihrest hrest hresult g hg with hg | hg
    · rcases mem_append.1 hg with hg | hg
      · rcases ihvisit (fun c hc => (Function.mem_callees hfs).1 hc) rfl g hg with hg | hg
        · exact .inl hg
        · exact .inr (.head hcall hg)
      · obtain rfl := mem_singleton.1 hg
        exact .inr (.single hcall)
    · exact .inr hg

theorem Ordered.front {front back : List Function} (h : Ordered fs (front ++ back)) :
    Ordered fs front := by
  refine ⟨(append_subset.1 h.subset).1, (nodup_append.1 h.nodup).1, ?_⟩
  rintro front' g back' rfl
  exact h.closed front' g (back' ++ back) (by simp)

/-- Functions that are listed after all that they call do not call each other in a circle. -/
theorem Ordered.acyclic (h : Ordered fs found) (hg : g ∈ found) :
    ¬ TransGen (Function.Calls fs) g g := by
  intro hcycle
  obtain ⟨front, back, rfl⟩ := append_of_mem hg
  obtain ⟨k, hcall, hreach⟩ := TransGen.head'_iff.1 hcycle
  have hk : k ∈ front := h.closed front g back rfl k hcall
  have hback : g ∈ front := h.front.mem_of_reaches hk hreach
  have hnodup := nodup_append.1 h.nodup
  exact hnodup.2.2 g hback g mem_cons_self rfl

theorem mem_of_transGen (h : TransGen (Function.Calls fs) f g) : g ∈ fs := by
  obtain ⟨k, -, hcall⟩ := TransGen.tail'_iff.1 h
  exact hcall.1

/-- The search for the helpers of an entry point ends, however deep it goes. It fails exactly if
helpers that are reached call each other in a circle. Otherwise it lists the helpers that are
reached, each once and after all helpers that it calls. -/
theorem reached_correct (hfs : (fs.map Function.name).Nodup)
    (hentry : entry.name ∉ fs.map Function.name) (scope : String) :
    (∀ result, Search scope fs [] entry (entry.callees fs) [] result ↔
      result = reached scope fs entry) ∧
    ((∃ e, reached scope fs entry = .error e) ↔
      ∃ g, entry.Reaches fs g ∧ TransGen (Function.Calls fs) g g) ∧
    ∀ found, reached scope fs entry = .ok found →
      (found.map Function.name).Nodup ∧
      (∀ g, g ∈ found ↔ TransGen (Function.Calls fs) entry g) ∧
      ∀ front g back, found = front ++ g :: back → ∀ h, g.Calls fs h → h ∈ front := by
  have hsearch : Search scope fs [] entry (entry.callees fs) [] (reached scope fs entry) :=
    (search_iff hfs).2 rfl
  have hcallees : ∀ c ∈ entry.callees fs, entry.Calls fs c :=
    fun c hc => (Function.mem_callees hfs).1 hc
  have hmem : ∀ found, reached scope fs entry = .ok found → ∀ g,
      TransGen (Function.Calls fs) entry g → g ∈ found := by
    intro found hfound g hg
    rcases mem_reached hfs hfound hg.to_reflTransGen with rfl | hmem
    · exact absurd (mem_map_of_mem (mem_of_transGen hg)) hentry
    · exact hmem
  refine ⟨fun result => search_iff hfs, ⟨?_, ?_⟩, ?_⟩
  · rintro ⟨e, he⟩
    have hpath : ∀ g ∈ fs, g.name ∈ [entry.name] → g.Reaches fs entry := by
      intro g hg hname
      rw [mem_singleton] at hname
      exact absurd (hname ▸ mem_map_of_mem hg) hentry
    obtain ⟨caller, callee, -, hreach, hcall, hback⟩ :=
      hsearch.error_cycle hfs hcallees hpath he
    exact ⟨caller, hreach, .head' hcall hback⟩
  · rintro ⟨g, hreach, hcycle⟩
    cases hresult : reached scope fs entry with
    | error e => exact ⟨e, rfl⟩
    | ok found =>
      have hg : g ∈ found := hmem found hresult g (TransGen.trans_right hreach hcycle)
      exact absurd hcycle ((ordered_reached hfs hresult).1.acyclic hg)
  · intro found hfound
    have hordered := (ordered_reached hfs hfound).1
    refine ⟨?_, fun g => ⟨fun hg => ?_, hmem found hfound g⟩, hordered.closed⟩
    · exact hordered.nodup.map_on fun f hf g hg =>
        inj_on_of_nodup_map hfs (hordered.subset hf) (hordered.subset hg)
    · rcases hsearch.reached_of_mem hfs hcallees hfound g hg with hg | hg
      · cases hg
      · exact hg

/-- A function whose body calls others, each in an argument of the one before. -/
def calling (name : String) (callees : List String) : Function :=
  ⟨name, .void, [], callees.foldr (fun callee inner => [.call callee [inner] default]) [], default⟩

/-- Two ways to one function, which is listed first, and a function that is not reached. -/
def diamond : List Function :=
  [calling "lit" ["fade", "tint"], calling "fade" ["tint"], calling "tint" [],
    calling "idle" ["lit"]]

/-- The way back of a circle leads through a function that the entry point does not call itself. -/
def circle : List Function :=
  [calling "lit" ["tint", "fade"], calling "tint" [], calling "fade" ["tint", "lit"]]

theorem reached_correct_diamond :
    (reached "main" diamond (calling "CS_MAIN" ["lit"])).map (·.map Function.name) =
        .ok ["tint", "fade", "lit"] ∧
      (∀ g, (calling "CS_MAIN" ["lit"]).Reaches diamond g →
      ¬ TransGen (Function.Calls diamond) g g) ∧
      ∃ g, (calling "CS_MAIN" ["tint", "lit"]).Reaches circle g ∧
        TransGen (Function.Calls circle) g g := by
  refine ⟨rfl, fun g hreach hcycle => ?_, ?_⟩
  · obtain ⟨e, he⟩ : ∃ e, reached "main" diamond (calling "CS_MAIN" ["lit"]) = .error e :=
      (reached_correct (by decide) (by decide) "main").2.1.2 ⟨g, hreach, hcycle⟩
    cases he
  · have hfailed : ∃ e, reached "main" circle (calling "CS_MAIN" ["tint", "lit"]) = .error e :=
      ⟨_, rfl⟩
    exact (reached_correct (by decide) (by decide) "main").2.1.1 hfailed

end ShaderDialect.Helpers
