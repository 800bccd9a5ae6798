import Lox.Proofs.Resolve.Addresses

/-! Programs parsed one after the other, each with new identities: whichever of them are resolved,
and in whatever order, no use of a variable loses its address to another. -/
namespace Lox

/-- Token lists parsed one after the other, each with the token that ends it. Where one stops to
take identities, the next goes on. -/
def parseAll (firstId : NodeId) : List (List Token × Token) → List Parse
  | [] => []
  | (tokens, finish) :: more =>
    let parsed := parse tokens finish firstId
    parsed :: parseAll parsed.nextId more

/-- Files the addresses of programs, one program after the other. -/
def Resolution.recordPrograms (table : Resolution) (programs : List (List Stmt)) : Resolution :=
  programs.foldl (fun table program => table.recordAll (resolve program).located) table

variable {firstId : NodeId} {texts : List (List Token × Token)}

/-- The identities in all programs come from one range, and none is used twice. -/
theorem parseAll_fresh (firstId : NodeId) (texts : List (List Token × Token)) :
    ∃ hi, firstId ≤ hi ∧
      Fresh firstId hi ((parseAll firstId texts).flatMap fun p => Stmt.idsAll p.program) := by
  induction texts generalizing firstId with
  | nil => exact ⟨firstId, Nat.le_refl _, Fresh.nil⟩
  | cons text more ih =>
    obtain ⟨tokens, finish⟩ := text
    obtain ⟨hle, hfresh, -⟩ := parse_neat tokens finish firstId
    obtain ⟨hi, hhi, hmore⟩ := ih (parse tokens finish firstId).nextId
    exact ⟨hi, Nat.le_trans hle hhi, hfresh.append hmore hle hhi⟩

theorem parseAll_tidy : ∀ p ∈ parseAll firstId texts, Stmt.TidyAll p.program := by
  induction texts generalizing firstId with
  | nil => simp [parseAll]
  | cons text more ih =>
    obtain ⟨tokens, finish⟩ := text
    exact List.forall_mem_cons.mpr ⟨(parse_neat tokens finish firstId).2.2, ih⟩

/-- What resolving finds are uses that stand in the program, each found once. -/
theorem located_sublist {program : List Stmt} (ht : Stmt.TidyAll program) :
    ((resolve program).located.map (·.id)).Sublist (Stmt.idsAll program) := by
  have hsub := located_ids_sublist (places program)
  rw [places, Stmt.filterMap_placesAll] at hsub
  rw [resolve_eq_places ht]
  exact hsub

theorem locatedAll_sublist {parses : List Parse} (ht : ∀ p ∈ parses, Stmt.TidyAll p.program) :
    ((parses.flatMap fun p => (resolve p.program).located).map (·.id)).Sublist
      (parses.flatMap fun p => Stmt.idsAll p.program) := by
  induction parses with
  | nil => exact List.Sublist.slnil
  | cons p parses ih =>
    obtain ⟨hp, hparses⟩ := List.forall_mem_cons.mp ht
    rw [List.flatMap_cons, List.flatMap_cons, List.map_append]
    exact (located_sublist hp).append (ih hparses)

/-- Filing keeps an address that no use of the same identity disagrees with. -/
theorem find?_recordAll_of_agree {uses : List Located} {id : NodeId} {address : Address}
    (hagree : ∀ u ∈ uses, u.id = id → u.address = address) (table : Resolution)
    (h : (∃ u ∈ uses, u.id = id) ∨ table.find? id = some address) :
    (table.recordAll uses).find? id = some address := by
  induction uses generalizing table with
  | nil => simpa [Resolution.recordAll] using h
  | cons u uses ih =>
    obtain ⟨hu, huses⟩ := List.forall_mem_cons.mp hagree
    have hstep : (table.recordAll (u :: uses)).find? id =
        ((table.record u.id u.address).recordAll uses).find? id := rfl
    rw [hstep]
    refine ih huses _ ?_
    rw [Resolution.find?_record]
    by_cases hid : u.id = id
    · exact .inr (by rw [if_pos hid.symm, hu hid])
    · rw [if_neg (Ne.symm hid)]
      simpa [hid] using h

/-- Filing programs one by one is filing all their addresses in order. -/
theorem recordPrograms_eq (table : Resolution) (programs : List (List Stmt)) :
    table.recordPrograms programs =
      table.recordAll (programs.flatMap fun program => (resolve program).located) := by
  induction programs generalizing table with
  | nil => rfl
  | cons program programs ih =>
    rw [List.flatMap_cons, Resolution.recordAll, List.foldl_append]
    exact ih (table.recordAll (resolve program).located)

/-- Programs that are parsed one after the other, with or without errors, have their declarations in
lists of statements only, and no two expressions of all of them have one identity. So what resolving
finds in them is filed apart: after any of the programs are resolved, in any order and as often as
one likes, each use that was found has the address that was found for it. -/
theorem parseAll_apart (firstId : NodeId) (texts : List (List Token × Token)) :
    let parses := parseAll firstId texts
    (∀ p ∈ parses, Stmt.TidyAll p.program) ∧
      (parses.flatMap fun p => Stmt.idsAll p.program).Nodup ∧
      (∀ p ∈ parses, ((resolve p.program).located.map (·.id)).Sublist (Stmt.idsAll p.program)) ∧
      ∀ (table : Resolution) (resolved : List Parse), resolved ⊆ parses → ∀ p ∈ resolved,
        ∀ u ∈ (resolve p.program).located,
          (table.recordPrograms (resolved.map (·.program))).find? u.id = some u.address := by
  intro parses
  obtain ⟨hi, -, hfresh⟩ := parseAll_fresh firstId texts
  have htidy : ∀ p ∈ parses, Stmt.TidyAll p.program := parseAll_tidy
  have hapart := hfresh.nodup.sublist (locatedAll_sublist htidy)
  refine ⟨htidy, hfresh.nodup, fun p hp => located_sublist (htidy p hp), ?_⟩
  intro table resolved hresolved p hp u hu
  have found {q : Parse} {v : Located} (hq : q ∈ resolved) (hv : v ∈ (resolve q.program).located) :
      v ∈ parses.flatMap fun p => (resolve p.program).located :=
    List.mem_flatMap.mpr ⟨q, hresolved hq, hv⟩
  rw [recordPrograms_eq, List.flatMap_map]
  refine find?_recordAll_of_agree ?_ table (.inl ⟨u, List.mem_flatMap.mpr ⟨p, hp, hu⟩, rfl⟩)
  intro v hv hid
  obtain ⟨q, hq, hv⟩ := List.mem_flatMap.mp hv
  exact congrArg Located.address (List.inj_on_of_nodup_map hapart (found hq hv) (found hp hu) hid)

end Lox
