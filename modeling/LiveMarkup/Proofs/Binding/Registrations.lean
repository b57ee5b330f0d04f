import LiveMarkup.Proofs.Binding.Ownership

/-!
# What a registry remembers

A registry is built by registrations, one after the other, and keeps two things: the definitions by
name, and the list of the names whose definition is terminal. Both are to say the same about a name,
whatever it was registered as before. Of all registrations only those count that no later one of the
same name replaces (`Registry.latest`); a registration drops its name from where it stood and puts
it at the end, and so both parts can be read off these (`Registry.definition?_ofRegistrations_iff`,
`Registry.terminalNames_eq`).

For elements that makes the search for terminal directives complete. Where it finds none, none of
the attributes asks by name for a terminal directive, so that whatever the attributes ask for is
applied beside other things and leaves the children alone (`Registry.records_ofRegistrations`).
-/

namespace LiveMarkup

variable {C : Type}

namespace Registry

/-! ## The registrations that count -/

/-- The registrations that no later one of the same name replaces, in order. -/
def latest : List (String × Directive C) → List (String × Directive C)
  | [] => []
  | e :: rs => if e.1 ∈ rs.map Prod.fst then latest rs else e :: latest rs

theorem latest_snoc (rs : List (String × Directive C)) (e : String × Directive C) :
    latest (rs ++ [e]) = (latest rs).filter (fun x ↦ x.1 != e.1) ++ [e] := by
  induction rs with
  | nil => rfl
  | cons x rs ih =>
    have hmem : x.1 ∈ (rs ++ [e]).map Prod.fst ↔ x.1 ∈ rs.map Prod.fst ∨ x.1 = e.1 := by
      rw [List.map_append, List.mem_append, List.map_singleton, List.mem_singleton]
    rw [List.cons_append, latest, latest, ih]
    by_cases hold : x.1 ∈ rs.map Prod.fst
    · rw [if_pos (hmem.mpr (.inl hold)), if_pos hold]
    · rw [if_neg hold, List.filter_cons]
      by_cases hname : x.1 = e.1
      · rw [if_pos (hmem.mpr (.inr hname)), if_neg (by simp [hname])]
      · rw [if_neg (mt hmem.mp (not_or.mpr ⟨hold, hname⟩)), if_pos (by simp [hname]),
          List.cons_append]

/-- A registration counts if its name is not registered again. -/
theorem mem_latest_iff {rs : List (String × Directive C)} {e : String × Directive C} :
    e ∈ latest rs ↔ ∃ before after, rs = before ++ e :: after ∧ e.1 ∉ after.map Prod.fst := by
  induction rs with
  | nil =>
    refine iff_of_false List.not_mem_nil ?_
    rintro ⟨before, after, h, -⟩
    exact absurd h.symm (List.append_ne_nil_of_right_ne_nil before (List.cons_ne_nil e after))
  | cons x rs ih =>
    have hrest : (∃ before after, x :: rs = before ++ e :: after ∧ e.1 ∉ after.map Prod.fst) ↔
        (x = e ∧ e.1 ∉ rs.map Prod.fst) ∨ e ∈ latest rs := by
      rw [ih]
      constructor
      · rintro ⟨_ | ⟨y, before⟩, after, h, hnew⟩
        · obtain ⟨rfl, rfl⟩ := List.cons.inj h
          exact .inl ⟨rfl, hnew⟩
        · obtain ⟨rfl, rfl⟩ := List.cons.inj h
          exact .inr ⟨before, after, rfl, hnew⟩
      · rintro (⟨rfl, hnew⟩ | ⟨before, after, rfl, hnew⟩)
        · exact ⟨[], rs, rfl, hnew⟩
        · exact ⟨x :: before, after, rfl, hnew⟩
    rw [hrest, latest]
    split
    · rename_i hmem
      refine ⟨.inr, fun h ↦ h.resolve_left ?_⟩
      rintro ⟨rfl, hnew⟩
      exact hnew hmem
    · rename_i hmem
      rw [List.mem_cons]
      refine or_congr_left ⟨?_, fun h ↦ h.1.symm⟩
      rintro rfl
      exact ⟨rfl, hmem⟩

/-- Of two registrations that count, the name of the earlier one does not occur behind the later
one. -/
theorem pairwise_latest (rs : List (String × Directive C)) :
    (latest rs).Pairwise fun x y ↦ x.1 ≠ y.1 ∧
      ∃ before after, rs = before ++ y :: after ∧ y.1 ∉ after.map Prod.fst ∧
        x.1 ∉ after.map Prod.fst := by
  induction rs with
  | nil => exact .nil
  | cons e rs ih =>
    have hrest : (latest rs).Pairwise fun x y ↦ x.1 ≠ y.1 ∧
        ∃ before after, e :: rs = before ++ y :: after ∧ y.1 ∉ after.map Prod.fst ∧
          x.1 ∉ after.map Prod.fst := by
      refine ih.imp fun h ↦ h.imp_right ?_
      rintro ⟨before, after, rfl, hnew⟩
      exact ⟨e :: before, after, rfl, hnew⟩
    rw [latest]
    split
    · exact hrest
    · rename_i hmem
      refine .cons (fun y hy ↦ ?_) hrest
      obtain ⟨before, after, rfl, hnew⟩ := mem_latest_iff.mp hy
      rw [List.map_append, List.mem_append, List.map_cons, List.mem_cons, not_or, not_or] at hmem
      exact ⟨hmem.2.1, e :: before, after, rfl, hnew, hmem.2.2⟩

/-! ## Definitions and terminal names -/

/-- A name is defined by its latest registration. -/
theorem definition?_ofRegistrations_iff (rs : List (String × Directive C)) (name : String)
    (d : Directive C) :
    (ofRegistrations rs).definition? name = some d ↔ (name, d) ∈ latest rs := by
  induction rs using List.reverseRecOn with
  | nil => exact iff_of_false (Option.some_ne_none d ·.symm) List.not_mem_nil
  | append_singleton rs e ih =>
    rw [ofRegistrations_snoc, latest_snoc, List.mem_append, List.mem_filter, List.mem_singleton]
    rcases eq_or_ne name e.1 with rfl | hne
    · rw [definition?_register_self, Option.some_inj]
      simp [Prod.ext_iff, eq_comm]
    · rw [definition?_register_of_ne _ hne, ih]
      have hother : (name, d) ≠ e := fun h ↦ hne (congrArg Prod.fst h)
      simp [hne, hother]

/-- The names listed as terminal are those of the terminal registrations that count, in order. -/
theorem terminalNames_eq (rs : List (String × Directive C)) :
    (ofRegistrations rs).terminalNames =
      ((latest rs).filter fun e ↦ e.2.terminal).map Prod.fst := by
  induction rs using List.reverseRecOn with
  | nil => rfl
  | append_singleton rs e ih =>
    have hothers : ((ofRegistrations rs).terminalNames.filter (· != e.1)) =
        (((latest rs).filter fun x ↦ x.1 != e.1).filter fun x ↦ x.2.terminal).map Prod.fst := by
      rw [ih, List.filter_map, List.filter_filter, List.filter_filter]
      refine congrArg _ (List.filter_congr fun x _ ↦ Bool.and_comm ..)
    rw [ofRegistrations_snoc, latest_snoc, List.filter_append, List.map_append, ← hothers]
    rw [register]
    dsimp only
    cases he : e.2.terminal with
    | true => simp [he]
    | false => simp [he]

/-- What a registry knows after registrations: each name is defined as it was last registered, and
the names whose definition is terminal are listed once each, in the order of their latest
registrations. -/
structure Records (rs : List (String × Directive C)) (r : Registry C) : Prop where
  definition?_eq_some_iff : ∀ name d, r.definition? name = some d ↔
    ∃ before after, rs = before ++ (name, d) :: after ∧ name ∉ after.map Prod.fst
  nodup : r.terminalNames.Nodup
  mem_iff : ∀ name, name ∈ r.terminalNames ↔
    ∃ d, r.definition? name = some d ∧ d.terminal = true
  /-- The latest registration of the later name has no registration of either name behind it. -/
  ordered : r.terminalNames.Pairwise fun earlier later ↦
    ∃ before d after, rs = before ++ (later, d) :: after ∧ later ∉ after.map Prod.fst ∧
      earlier ∉ after.map Prod.fst

end Registry

/-- Whether the attributes of an element ask by name for no terminal directive: none of them is the
mark with a name behind it whose definition is terminal, and of what the attributes are found to ask
for, only what comes from interpolations can be terminal. -/
structure Compiler.NamesNoTerminal (c : Compiler C) (attrs : Attributes) : Prop where
  attributes : ∀ name d, (c.config.mark ++ name) ∈ attrs.map Prod.fst →
    c.registry.definition? name = some d → d.terminal = false
  applications : ∀ n, ∀ a ∈ (c.directives n attrs).1, a.descriptor.isByName = true →
    a.directive.terminal = false

namespace Registry

/-- **What registrations leave behind.** After any registrations, definitions and terminal names
agree with the latest one of each name; so wherever an element has no terminal directive to be left
to, its attributes ask by name for none. -/
theorem records_ofRegistrations (rs : List (String × Directive C)) :
    (ofRegistrations rs).Records rs ∧
      ∀ c : Compiler C, c.registry = ofRegistrations rs → ∀ attrs, c.terminal? attrs = none →
        c.NamesNoTerminal attrs := by
  have hpairwise := (pairwise_latest rs).filter fun e ↦ e.2.terminal
  refine ⟨⟨fun name d ↦ ?_, ?_, mem_terminalNames_ofRegistrations rs, ?_⟩,
    fun c hc attrs hsearch ↦ ⟨fun name d hattr hdefinition ↦ ?_, fun n a ha hname ↦ ?_⟩⟩
  · rw [definition?_ofRegistrations_iff, mem_latest_iff]
  · rw [terminalNames_eq]
    exact List.pairwise_map.mpr (hpairwise.imp And.left)
  · rw [terminalNames_eq]
    refine List.pairwise_map.mpr (hpairwise.imp fun {x y} h ↦ ?_)
    obtain ⟨-, before, after, hsplit, hlater, hearlier⟩ := h
    exact ⟨before, y.2, after, hsplit, hlater, hearlier⟩
  · rw [Bool.eq_false_iff]
    intro hterminal
    have hlisted : name ∈ c.registry.terminalNames := by
      rw [hc] at hdefinition ⊢
      exact (mem_terminalNames_ofRegistrations rs name).mpr ⟨d, hdefinition, hterminal⟩
    have hcontains : c.registry.contains name = true := by
      rw [contains, hdefinition]
      rfl
    have hfound := Compiler.isSome_owner? hlisted hcontains (Compiler.has_of_mem hattr)
    rw [← c.terminal?_eq_owner?, hsearch] at hfound
    contradiction
  · rw [Bool.eq_false_iff]
    intro hterminal
    rw [Compiler.directives_fst] at ha
    rw [c.terminal?_eq_owner?] at hsearch
    have himplicit :=
      Compiler.implicit_of_owner?_none hc hsearch (List.mem_mergeSort.mp ha) hterminal
    rw [himplicit.isByName] at hname
    contradiction

/-- Registering a name again moves it to the end, or takes it from the list. -/
example :
    (ofRegistrations [("if", { terminal := true, behaviour := .client () }),
      ("for", { terminal := true, behaviour := .client () }),
      ("slot", { terminal := true, behaviour := .client () }),
      ("if", { terminal := true, behaviour := .client () }),
      ("for", { behaviour := .client () })]).terminalNames = ["slot", "if"] := by decide

end Registry

/-- Attributes of which one asks by name for a directive, and the other by an expression for `attr`,
which has been made terminal. -/
def mixedAttributes : Attributes := [("v-bind", "a"), ("title", "{{b}}")]

/-- The search looks for `v-own` and `v-attr` and does not find them, and `bind` is not terminal. -/
theorem namesNoTerminal_mixedAttributes :
    (Registry.ofRegistrations possessive).terminalNames = ["own", "attr"] ∧
      possessiveCompiler.terminal? mixedAttributes = none ∧
      possessiveCompiler.NamesNoTerminal mixedAttributes :=
  ⟨by decide, rfl, (Registry.records_ofRegistrations possessive).2 possessiveCompiler rfl _ rfl⟩

end LiveMarkup
