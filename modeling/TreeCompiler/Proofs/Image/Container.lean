import TreeCompiler.Proofs.Image.Denotation
import TreeCompiler.Proofs.Image.UniqueReading

/-!
# Reading back the container of a compiled image

The token of a row is never zero, as no table has the number zero. So what the compiler writes can be
read in one way only.

* `Token.ofRow_raw_ne_zero`, `References.NamesMethod.raw_ne_zero`, ... : tokens of rows are not zero;
* `Assembly.visible_of_image` : no token of a compiled image is taken for an absent one.
-/

namespace TreeCompiler

/-! ## Tokens are not zero -/

theorem Token.ofRow_raw_ne_zero {table : UInt8} (htable : table ≠ 0) (row : Nat) : (ofRow table row).raw ≠ 0 := by
  intro hraw
  have hnat : (ofRow table row).raw.toNat = 0 := by
    rw [hraw]
    rfl
  rw [toNat_ofRow] at hnat
  apply htable
  apply UInt8.toNat_inj.mp
  change table.toNat = 0
  omega

namespace References
variable {f : References} {t : TypeTable} {token : Token}

theorem NamesType.raw_ne_zero {id : TypeId} (h : f.NamesType t token id) : token.raw ≠ 0 := by
  unfold NamesType at h
  split at h
  · subst h
    exact Token.ofRow_raw_ne_zero (by decide) _
  · obtain ⟨n, -, rfl⟩ := h
    exact Token.ofRow_raw_ne_zero (by decide) _

theorem NamesMethod.raw_ne_zero {m : MethodRef} (h : f.NamesMethod t token m) : token.raw ≠ 0 := by
  unfold NamesMethod at h
  split at h
  · obtain ⟨-, rfl⟩ := h
    exact Token.ofRow_raw_ne_zero (by decide) _
  · obtain ⟨n, row, -, rfl, -⟩ := h
    exact Token.ofRow_raw_ne_zero (by decide) _

theorem NamesAccessor.raw_ne_zero {type : TypeId} {before : Nat} (h : NamesAccessor t token type before) :
    token.raw ≠ 0 := by
  obtain ⟨rows, -, rfl⟩ := h
  exact Token.ofRow_raw_ne_zero (by decide) _

end References

theorem Token.visible_of_rel {α : Type} {R : α → Token → Prop} (hR : ∀ a token, R a token → token.raw ≠ 0)
    {x : Option α} {o : Option Token} (h : Option.Rel R x o) : Token.Visible o := by
  intro token htoken
  cases h with
  | some h =>
    cases htoken
    exact hR _ _ h
  | none => cases htoken

theorem TypeTable.DescribesType.visible {t : TypeTable} {f : References} {type : TypeId} {d : TypeDef}
    {row : TypeDefRow} (h : t.DescribesType (f.Names t) type d row) : row.Visible := by
  refine ⟨Token.visible_of_rel (fun _ _ hbase => hbase.raw_ne_zero) h.base, fun p hp => ?_⟩
  obtain ⟨k, hk⟩ := List.getElem?_of_mem hp
  obtain ⟨property, -, hproperty⟩ := h.properties.flip.exists_getElem? hk
  refine ⟨Token.visible_of_rel ?_ hproperty.getter, Token.visible_of_rel ?_ hproperty.setter⟩
  · rintro _ token ⟨_, _, _, _, haccessor⟩
    exact haccessor.raw_ne_zero
  · rintro _ token ⟨_, _, _, _, haccessor⟩
    exact haccessor.raw_ne_zero

theorem Assembly.visible_of_image {a : Assembly} {i : Image} (h : a.image = .ok i) : i.Visible := by
  obtain ⟨f, hfinished⟩ := finished_of_image h
  refine ⟨Token.visible_of_rel (fun _ _ hm => hm.raw_ne_zero) hfinished.described.entryPoint, ?_⟩
  intro d hd
  obtain ⟨k, hk⟩ := List.getElem?_of_mem hd
  obtain ⟨definition, -, hdefinition⟩ := hfinished.described.typeDefs.flip.exists_getElem? hk
  exact hdefinition.visible

/-! ## Containers -/

/-- Of two images whose lists, texts and blobs have sizes of four bytes, and in which no token that is
there is zero, the bytes of one begin with the bytes of the other only if they are the same image. No
token of a compiled image is zero. -/
theorem Image.bytes_prefix_free :
    (∀ i j : Image, i.Short → i.Visible → j.Short → j.Visible → i.bytes <+: j.bytes → i = j) ∧
    (∀ i j : Image, i.Short → i.Visible → j.Short → j.Visible → i.bytes = j.bytes → i = j) ∧
    ∀ (a : Assembly) (i : Image), a.image = .ok i → i.Visible := by
  have hfree : ∀ i j : Image, i.Short → i.Visible → j.Short → j.Visible →
      i.bytes <+: j.bytes → i = j := by
    intro i j hi hiv hj hjv h
    obtain ⟨rest, hrest⟩ := h
    have heq : i.bytes ++ rest = j.bytes ++ [] := by
      rw [hrest, List.append_nil]
    exact (splitsOff_bytes i j ⟨hi, hiv⟩ ⟨hj, hjv⟩ rest [] heq).1
  refine ⟨hfree, ?_, fun a i => Assembly.visible_of_image⟩
  intro i j hi hiv hj hjv h
  exact hfree i j hi hiv hj hjv (h ▸ List.prefix_rfl)

theorem bytes_prefix_free_labelProgram : ∃ i, labelProgram.image = .ok i ∧ i.Short ∧ i.Visible ∧
    ∀ j : Image, j.Short → j.Visible → (i.bytes <+: j.bytes ↔ i = j) := by
  obtain ⟨i, himage, hshort⟩ : ∃ i, labelProgram.image = .ok i ∧ i.Short := by
    refine ⟨_, rfl, ?_⟩
    decide +kernel
  have hvisible : i.Visible := Image.bytes_prefix_free.2.2 labelProgram i himage
  refine ⟨i, himage, hshort, hvisible, fun j hj hjv => ⟨?_, ?_⟩⟩
  · exact Image.bytes_prefix_free.1 i j hshort hvisible hj hjv
  · rintro rfl
    exact List.prefix_rfl

end TreeCompiler
