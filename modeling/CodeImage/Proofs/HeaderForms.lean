import CodeImage.Proofs.Records

-- In a header that is stored in full every number takes a word, but for the two cache indices, of which a byte each is
-- left.

namespace CodeImage

namespace Schema

theorem parse_encode {α : Type} {schema : Schema α} (lawful : schema.Lawful) (record : α) :
    schema.parse (schema.encode record) = .ok (schema.cut record) := by
  rw [parse, if_pos (Nat.le_of_eq (size_encode schema record).symm), decode_encode lawful]

theorem parse_encode_of_fits {α : Type} {schema : Schema α} (lawful : schema.Lawful) {record : α}
    (fits : schema.Fits record) : schema.parse (schema.encode record) = .ok record := by
  rw [parse_encode lawful, cut_of_fits lawful fits]

end Schema

namespace FunctionHeader

-- What is left of a header that is stored in full.
def inFull (h : FunctionHeader) : FunctionHeader :=
  { h with
    readCacheIndex := h.readCacheIndex % 256, writeCacheIndex := h.writeCacheIndex % 256, overflowed := true }

-- The mark plays no part in the record, so the header may be taken as marked.
theorem ofLarge_cut_toLarge_eq_inFull (h : FunctionHeader) :
    ofLarge (Schema.largeHeader.cut h.toLarge) = .ok h.inFull := by
  have marked := @ofLarge_cut_toLarge { h with overflowed := true } rfl
  exact marked

theorem ofRecord_toSmall_eq (h : FunctionHeader) : ofRecord h.toSmall = .ok { h with overflowed := false } :=
  @ofRecord_toSmall { h with overflowed := false } rfl

theorem mod_256_eq_self_iff (x : UInt32) : x % 256 = x ↔ x.toNat ≤ 255 := by
  rw [← UInt32.toNat_inj, UInt32.toNat_mod, show (256 : UInt32).toNat = 256 from rfl]
  omega

-- Nothing is lost exactly if both cache indices take a byte.
theorem inFull_eq_iff (h : FunctionHeader) :
    h.inFull = { h with overflowed := true } ↔ h.readCacheIndex.toNat ≤ 255 ∧ h.writeCacheIndex.toNat ≤ 255 := by
  rw [← mod_256_eq_self_iff, ← mod_256_eq_self_iff]
  simp [inFull]

-- A header without room in the table is found through its stub and comes back in full, as itself exactly if its
-- cache indices take a byte each. A header with room comes back from the table.
theorem stored_forms (h : FunctionHeader) :
    (h.fitsSmall = false → ∀ place, ∃ stub,
      Schema.smallHeader.parse (Schema.smallHeader.encode (h.toStub place)) = .ok stub ∧
        stub.overflowed = 1 ∧ largeOffset stub = place) ∧
    (h.fitsSmall = false → ∃ full,
      Schema.largeHeader.parse (Schema.largeHeader.encode h.toLarge) = .ok full ∧ ofLarge full = .ok h.inFull ∧
        (ofLarge full = .ok { h with overflowed := true } ↔
          h.readCacheIndex.toNat ≤ 255 ∧ h.writeCacheIndex.toNat ≤ 255)) ∧
    (h.fitsSmall = true → ∃ small,
      Schema.smallHeader.parse (Schema.smallHeader.encode h.toSmall) = .ok small ∧
        ofRecord small = .ok { h with overflowed := false }) := by
  refine ⟨?_, ?_, ?_⟩
  · intro _ place
    exact ⟨h.toStub place, Schema.parse_encode_of_fits Schema.smallHeader_lawful (toStub_fits h place), rfl,
      largeOffset_toStub h place⟩
  · intro _
    have back := ofLarge_cut_toLarge_eq_inFull h
    refine ⟨_, Schema.parse_encode Schema.largeHeader_lawful h.toLarge, back, ?_⟩
    rw [back, Except.ok.injEq, inFull_eq_iff]
  · intro fits
    exact ⟨h.toSmall, Schema.parse_encode_of_fits Schema.smallHeader_lawful (toSmall_fits fits), ofRecord_toSmall_eq h⟩

-- A header far behind in the file with full caches, and one that the table has room for.
theorem sample_stored_forms :
    let far : FunctionHeader := { offset := 0x2000000, readCacheIndex := 255, writeCacheIndex := 7, strictMode := true }
    let near : FunctionHeader := { offset := 0x1ffffff, paramCount := 127, overflowed := true }
    (∃ stub, Schema.smallHeader.parse (Schema.smallHeader.encode (far.toStub 0x1234567)) = .ok stub ∧
      stub.overflowed = 1 ∧ largeOffset stub = 0x1234567) ∧
    (∃ full, Schema.largeHeader.parse (Schema.largeHeader.encode far.toLarge) = .ok full ∧
      ofLarge full = .ok { far with overflowed := true }) ∧
    ∃ small, Schema.smallHeader.parse (Schema.smallHeader.encode near.toSmall) = .ok small ∧
      ofRecord small = .ok { near with overflowed := false } := by
  intro far near
  obtain ⟨stubbed, inFull, -⟩ := stored_forms far
  obtain ⟨-, -, fitting⟩ := stored_forms near
  obtain ⟨full, parsed, -, exact_⟩ := inFull (by decide)
  exact ⟨stubbed (by decide) 0x1234567, ⟨full, parsed, exact_.mpr (by decide)⟩, fitting (by decide)⟩

-- A cache index of 256 takes the header out of the table, and in full it comes back as 0.
theorem full_form_cuts_caches :
    ¬ ∀ h : FunctionHeader, h.fitsSmall = false → ∃ full,
      Schema.largeHeader.parse (Schema.largeHeader.encode h.toLarge) = .ok full ∧
        ofLarge full = .ok { h with overflowed := true } := by
  intro always
  obtain ⟨full, parsed, same⟩ := always { readCacheIndex := 256 } (by decide)
  rw [Schema.parse_encode Schema.largeHeader_lawful] at parsed
  cases parsed
  rw [ofLarge_cut_toLarge_eq_inFull, Except.ok.injEq, inFull_eq_iff] at same
  exact absurd same.1 (by decide)

end FunctionHeader
end CodeImage
