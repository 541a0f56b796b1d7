import MiniScheme.Proofs.Compiler.Outcome

/-!
# Compiling that failed

A datum that does not compile leaves no trace in the scopes: the top level gets back the names,
slots and constants that it had. Whatever was pushed meanwhile is dropped, and numbers that were
handed out are not used again.
-/

namespace MiniScheme

namespace Scopes

variable {scopes old new : Scopes} {target : ScopeRef} {e : Scope}

/-- What a change does to one scope is all that matters. -/
theorem modify_eq {change : Scope → Scope} {changed : Scope}
    (found : scopes.stack[target]? = some e) (eq : change e = changed) :
    scopes.modify target change = scopes.modify target fun _ => changed := by
  have same : scopes.stack.modify target change = scopes.stack.modify target fun _ => changed := by
    apply Array.ext_getElem?
    intro place
    rw [Array.getElem?_modify, Array.getElem?_modify]
    split
    · rename_i here
      subst here
      simp [found, eq]
    · rfl
  rw [modify, modify, same]

/-- Putting a scope back as it was leaves the others as they have become. -/
theorem Valid.restore (valid : old.Valid) (valid' : new.Valid) (further : old.Extends new)
    (size : new.stack.size = old.stack.size) (found : old.stack[target]? = some e) :
    (new.modify target fun _ => e).Valid ∧ old.Extends (new.modify target fun _ => e) := by
  obtain ⟨latest, there, evolves⟩ := further.embeds target e found
  have extended : old.Extends (new.modify target fun _ => e) := by
    refine ⟨?_, further.numbers, ?_⟩
    · intro scope other found'
      rw [getElem?_modify]
      split
      · rename_i here
        subst here
        rw [found] at found'
        cases found'
        exact ⟨e, by rw [there, Option.map_some], .refl e⟩
      · exact further.embeds scope other found'
    · intro scope other outside found'
      have bound := lt_size found'
      rw [size_modify, size] at bound
      exact absurd bound (Nat.not_lt.mpr outside)
  -- What is there now can become what was there before.
  have embeds : (new.modify target fun _ => e).Embeds new :=
    forall_modify (fun _ other _ found' => ⟨other, found', .refl other⟩)
      fun _ _ => ⟨latest, there, evolves⟩
  have nested : (new.modify target fun _ => e).Nested := by
    refine valid'.toNested.modify fun other found' => ?_
    cases Option.some.inj (there.symm.trans found')
    exact ⟨evolves.parent.symm, evolves.syntactic.symm⟩
  refine ⟨⟨nested, forall_modify (fun scope other _ before => ?_) fun _ _ =>
    (valid.entries target e found).mono valid.toNested extended⟩, extended⟩
  have other_valid := valid'.entries scope other before
  refine ⟨other_valid.number, other_valid.places, other_valid.deferred, ?_, other_valid.constants⟩
  intro waiting mem
  obtain ⟨number, same⟩ := other_valid.homes waiting mem
  refine ⟨number, fun home found'' numbered => ?_⟩
  obtain ⟨home', there', evolves'⟩ := embeds _ _ found''
  have bound := lt_size found''
  rw [← embeds.owner nested bound]
  exact same home' there' (evolves'.id.trans numbered)

theorem restored_eq {latest : Scope} (evolves : e.Evolves latest) :
    { latest with
      bindings := e.bindings
      variableCount := e.variableCount
      constants := latest.constants.take e.constants.size
      deferred := e.deferred } = e := by
  obtain ⟨added, eq⟩ := evolves.constants
  have constants : latest.constants.take e.constants.size = e.constants := by
    rw [eq]
    simp
  have id := evolves.id
  have parent := evolves.parent
  have syntactic := evolves.syntactic
  have inv := evolves.invocation
  cases e
  cases latest
  simp_all

/-- Going back to a checkpoint puts the top level back. -/
theorem rollback_eq {heap : Heap} (size : old.stack.size = 2) (further : old.Extends new)
    (found : old.stack[topLevelScope]? = some e) :
    new.rollback old.checkpoint heap = ((new.truncate 2).modify topLevelScope fun _ => e,
      match e.invocation with
      | some inv => heap.modifySlots inv fun slots => slots.take e.variableCount
      | none => heap) := by
  have truncated := further.truncate
  rw [size] at truncated
  obtain ⟨latest, there, evolves⟩ := truncated.embeds _ _ found
  have checkpoint : old.checkpoint =
      { bindings := e.bindings
        variableCount := e.variableCount
        constantCount := e.constants.size
        deferred := e.deferred } := by
    simp only [Scopes.checkpoint, getD_eq found]
  have latest_eq : (new.truncate 2).stack.getD topLevelScope default = latest := getD_eq there
  rw [checkpoint, rollback]
  change ((new.truncate 2).modify topLevelScope _,
    match ((new.truncate 2).stack.getD topLevelScope default).invocation with
    | some _ => _
    | none => _) = _
  rw [latest_eq, evolves.invocation, modify_eq there (restored_eq evolves)]

end Scopes

namespace Compilation

variable {law : Discipline} {before after : Compilation}

variable {inv : Handle}

/-- The slots of the top level are cut back to those that it had. -/
theorem widens_cut {old new : Heap} {proc : Option Handle} {slots : Array Value}
    (widens : old.Widens law new) (held : old.get? inv = some (.invocation proc slots)) :
    old.Widens law (new.modifySlots inv fun slots' => slots'.take slots.size) := by
  have cut_sound : ∀ slots' : Array Value, (∀ v ∈ slots', v.Sound law new) →
      ∀ v ∈ slots'.take slots.size, v.Sound law new := by
    intro slots' all v mem
    rw [Array.take_eq_extract, Array.mem_extract_iff_getElem] at mem
    obtain ⟨index, bound, rfl⟩ := mem
    exact all _ (Array.getElem_mem _)
  obtain ⟨sound, keeps⟩ := Machine.modifySlots_sound widens.sound inv cut_sound
  refine ⟨widens.keeps.trans keeps, ⟨?_, ?_⟩, ?_, sound⟩
  · intro h proc' slots' held'
    obtain ⟨slots'', present, wider⟩ := widens.persists.invocation h proc' slots' held'
    rw [Heap.get?_modifySlots]
    split
    · rename_i here
      subst here
      rw [held] at held'
      cases held'
      exact ⟨slots''.take slots.size, by simp [present], by simp; omega⟩
    · exact ⟨slots'', present, wider⟩
  · intro h lam parent held'
    obtain ⟨lam', present⟩ := widens.persists.closure h lam parent held'
    rw [Heap.get?_modifySlots]
    split
    · exact ⟨lam', by simp [present]⟩
    · exact ⟨lam', present⟩
  · intro h obj kind
    rw [widens.code h obj kind]
    apply Heap.get?_modifySlots_iff
    rcases kind with kind | kind <;> simp [kind]

/-- After a failure the scopes are as before, apart from numbers that are used up. -/
theorem Advances.rollback (valid : before.Valid law) (size : before.scopes.stack.size = 2)
    {e : Scope} (found : before.scopes.stack[topLevelScope]? = some e)
    (anchored : e.invocation = some inv) (advances : before.Advances law after)
    {scopes : Scopes} {heap : Heap}
    (rolled : after.scopes.rollback before.scopes.checkpoint after.store.heap = (scopes, heap)) :
    before.Advances law { scopes, store := { after.store with heap } } ∧ scopes.stack.size = 2 := by
  rw [Scopes.rollback_eq size advances.scopes found, anchored] at rolled
  cases rolled
  obtain ⟨truncated, truncated_size⟩ := advances.truncate valid.base
  rw [size] at truncated truncated_size
  obtain ⟨scopes_valid, further⟩ := valid.scopes.restore truncated.valid.scopes truncated.scopes
    (truncated_size.trans size.symm) found
  obtain ⟨latest, there, evolves⟩ := truncated.scopes.embeds _ _ found
  obtain ⟨proc, slots, held, n⟩ := valid.slots _ e inv found anchored
  have widens := widens_cut advances.widens held
  have restored_size : ((after.scopes.truncate 2).modify topLevelScope fun _ => e).stack.size =
      2 := (Scopes.size_modify ..).trans truncated_size
  -- The scopes have the same invocations as before they were put back.
  have back {scope : ScopeRef} {other : Scope}
      (found' : ((after.scopes.truncate 2).modify topLevelScope fun _ => e).stack[scope]? =
        some other) : ∃ other' : Scope, (after.scopes.truncate 2).stack[scope]? = some other' ∧
          other'.invocation = other.invocation ∧
            (topLevelScope = scope ∧ other = e ∨ topLevelScope ≠ scope ∧ other = other') := by
    rw [Scopes.getElem?_modify] at found'
    split at found'
    · rename_i here
      subst here
      rw [there] at found'
      cases found'
      exact ⟨latest, there, evolves.invocation, .inl ⟨rfl, rfl⟩⟩
    · exact ⟨other, found', rfl, .inr ⟨‹_›, rfl⟩⟩
  rw [n] at widens
  refine ⟨⟨⟨scopes_valid, restored_size.symm ▸ Nat.lt_succ_self 1, widens.sound, ?_, ?_⟩, further,
    widens, advances.hosts⟩, restored_size⟩
  · intro scope other inv' found' held'
    obtain ⟨other', there', same, place⟩ := back found'
    obtain ⟨proc', slots', present, n'⟩ := truncated.valid.slots scope other' inv'
      there' (same.trans held')
    rcases place with ⟨rfl, rfl⟩ | ⟨elsewhere, rfl⟩
    · cases Option.some.inj (there'.symm.trans there)
      cases Option.some.inj (anchored.symm.trans held')
      refine ⟨proc', slots'.take other.variableCount, ?_, ?_⟩
      · simp [Heap.get?_modifySlots, present]
      · have wider := evolves.slots
        simp only [Array.take_eq_extract, Array.size_extract, n']
        omega
    · refine ⟨proc', slots', ?_, n'⟩
      have distinct : inv' ≠ inv := by
        rintro rfl
        exact elsewhere (truncated.valid.apart _ _ latest other _ there there'
          (evolves.invocation.trans anchored) held')
      simp only [Heap.get?_modifySlots, if_neg distinct, present]
  · intro scope scope' other other' inv' found' found'' held' held''
    obtain ⟨latest, there, same, -⟩ := back found'
    obtain ⟨latest', there', same', -⟩ := back found''
    exact truncated.valid.apart scope scope' latest latest' inv' there there'
      (same.trans held') (same'.trans held'')

end Compilation

end MiniScheme
