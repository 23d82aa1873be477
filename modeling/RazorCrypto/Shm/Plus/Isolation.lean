import RazorCrypto.Shm.Plus.Invariant

/-!
# Isolation of instruments

The store tells instruments apart by their hash only. Instruments with different hashes
are isolated in every run: a call for one leaves the address and the record of the other
alone. Different names have different hashes if they differ only within nine bytes, of
one length unless they are at the beginning. Ten bytes are enough for a collision.
-/

universe u

namespace RazorCrypto.Shm

/-- The names differ only in a part of at most nine ASCII bytes, which is at the beginning
or of the same length in both. -/
def DifferShort (id id' : Name) : Prop :=
  ∃ beginning x y ending, id = beginning ++ x ++ ending ∧ id' = beginning ++ y ++ ending ∧
    x ≠ y ∧ (∀ c ∈ x, c ≠ 0 ∧ c < 128) ∧ (∀ c ∈ y, c ≠ 0 ∧ c < 128) ∧
    x.length ≤ 9 ∧ y.length ≤ 9 ∧ (beginning = [] ∨ x.length = y.length)

/-- In particular, different names of at most nine bytes. -/
theorem differShort_of_short {id id' : Name} (ne : id ≠ id')
    (ascii : ∀ c ∈ id, c ≠ 0 ∧ c < 128) (ascii' : ∀ c ∈ id', c ≠ 0 ∧ c < 128)
    (short : id.length ≤ 9) (short' : id'.length ≤ 9) : DifferShort id id' :=
  ⟨[], id, id', [], by simp, by simp, ne, ascii, ascii', short, short', Or.inl rfl⟩

theorem DifferShort.comHash_ne {id id' : Name} (differ : DifferShort id id') :
    comHash id ≠ comHash id' := by
  obtain ⟨beginning, x, y, ending, rfl, rfl, ne, hx, hy, shortX, shortY, aligned⟩ := differ
  rw [Ne, comHash_append_right_iff]
  intro same
  have middle : comHash x = comHash y := by
    rcases aligned with rfl | len
    · simpa using same
    · exact (comHash_append_left_iff beginning len).mp same
  exact ne (comHash_injective_of_short hx hy shortX shortY middle)

namespace ShmMdPlus

variable {α : Type u} [MarketData α]

/-- The instruments never share a record, and a call for one of them leaves the address
and the record of the other alone. -/
structure Isolated (s : ShmMdPlus α) (id id' : Name) : Prop where
  separate : ∀ i, s.mInstrumentsAddress.lookup (comHash id) = some i →
    s.mInstrumentsAddress.lookup (comHash id') ≠ some i
  untouched : ∀ c : Call α, c.key = comHash id → ∀ i,
    s.mInstrumentsAddress.lookup (comHash id') = some i →
      (s.call c).1.mInstrumentsAddress.lookup (comHash id') = some i ∧
        (s.call c).1.shm.record i = s.shm.record i
  data : ∀ c : Call α, c.key = comHash id →
    s.mInstrumentsAddress.lookup (comHash id') ≠ none →
      (s.call c).1.getCurMd id' = s.getCurMd id'

variable {M N : Nat} {b : Book comHash α} {s : ShmMdPlus α}

/-- A call keeps the address and the record of every known key but its own. -/
theorem Represents.call_frame (h : Represents M N b s) (c : Call α) {key : UInt64} {i : Nat}
    (ne : key ≠ c.key) (found : s.mInstrumentsAddress.lookup key = some i) :
    (s.call c).1.mInstrumentsAddress.lookup key = some i ∧
      (s.call c).1.shm.record i = s.shm.record i ∧
      (s.call c).1.mdBlockNum = s.mdBlockNum := by
  obtain ⟨address, blockNum, record⟩ :=
    h.onRtnData_frame c.instrumentID c.newData c.compare found
  exact ⟨address, record.resolve_right fun own => ne own.1, blockNum⟩

/-- Different hashes are enough for isolation. -/
theorem Represents.isolated (h : Represents M N b s) {id id' : Name}
    (ne : comHash id ≠ comHash id') : Isolated s id id' := by
  refine ⟨?_, ?_, ?_⟩
  · intro i found found'
    exact ne (h.injective found found')
  · intro c own i found
    obtain ⟨address, record, -⟩ := h.call_frame c (own ▸ ne.symm) found
    exact ⟨address, record⟩
  · intro c own known
    obtain ⟨i, found⟩ := Option.ne_none_iff_exists'.mp known
    obtain ⟨address, record, blockNum⟩ := h.call_frame c (own ▸ ne.symm) found
    simp only [getCurMd, address, found, record, blockNum, Option.map_some]

/-- Names that differ within nine bytes have different hashes, and names with different
hashes are isolated in every state that a run of calls reaches from a fresh store. -/
theorem isolation (page : Region α) {M N : Nat} {instruments : List Name}
    (capacity : M < 2147483648) (blocks : N < 2147483648) (room : instruments.length ≤ M)
    (distinct : (instruments.map comHash).Nodup) (calls : List (Call α)) :
    (∀ id id', DifferShort id id' → comHash id ≠ comHash id') ∧
      ∀ id id', comHash id ≠ comHash id' →
        Isolated ((start page M N instruments).run calls).1 id id' := by
  obtain ⟨b, represented, -, -⟩ :=
    run_represents (start_represents page capacity blocks room distinct) calls
  exact ⟨fun id id' differ => differ.comHash_ne, fun id id' ne => represented.isolated ne⟩

theorem isolation_two :
    comHash [65] ≠ comHash [66] ∧
      Isolated ((start (Region.zeroed : Region UInt64) 2 1 [[65], [66]]).run
        [⟨[65], 7, none⟩]).1 [65] [66] := by
  obtain ⟨hash, isolated⟩ := @isolation UInt64 _ Region.zeroed 2 1 [[65], [66]]
    (by decide) (by decide) (by decide) (by decide) [⟨[65], 7, none⟩]
  have ne := hash [65] [66]
    (differShort_of_short (by decide) (by simp) (by simp) (by decide) (by decide))
  exact ⟨ne, isolated [65] [66] ne⟩

/-- Two ids of ten bytes with one hash: `A0CMA03AXA` and `7R00YW_50D`. -/
def collidingIds : Name × Name :=
  ([65, 48, 67, 77, 65, 48, 51, 65, 88, 65], [55, 82, 48, 48, 89, 87, 95, 53, 48, 68])

/-- A store of the first one takes an update of the second and keeps it in the record of
the first. -/
theorem collision_mixes_instruments :
    collidingIds.1 ≠ collidingIds.2 ∧ comHash collidingIds.1 = comHash collidingIds.2 ∧
      ((start (Region.zeroed : Region UInt64) 2 1 [collidingIds.1]).call
        ⟨collidingIds.2, 7, none⟩).2 = true ∧
      ((start (Region.zeroed : Region UInt64) 2 1 [collidingIds.1]).call
        ⟨collidingIds.2, 7, none⟩).1.getCurMd collidingIds.1 = some 7 := by
  refine ⟨by decide, by decide, by decide +kernel, by decide +kernel⟩

end ShmMdPlus
end RazorCrypto.Shm
