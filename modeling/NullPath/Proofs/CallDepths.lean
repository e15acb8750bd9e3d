import Mathlib.Data.List.Sort
import NullPath.Memory.Basic

/-!
# Ending a call depth

A slot is packed into one word of 64 bits, with the depth in the upper half and the index in the lower
half.  In the order of words the slots of one depth stand together.  So a map from words gets rid of a
depth without a look at the others: seek the first word of the depth, and delete from there on until
the upper half changes.

* `Slot.key`, `Slot.toNat_key`, `Slot.lt_key_first`: slots as words.
* `Assoc.sweep`, `Assoc.sweep_eq`, `Assoc.sweep_pack`: a sweep removes one depth.
* `Memory.drop_exact`: what is left of a memory when a call depth ends.
-/

namespace NullPath

/-! ## Words -/

/-- The upper half of a word. -/
def upper (k : UInt64) : Nat :=
  (k >>> 32).toNat

theorem upper_eq (k : UInt64) : upper k = k.toNat / 0x100000000 := by
  rw [upper, UInt64.toNat_shiftRight, Nat.shiftRight_eq_div_pow]
  rfl

theorem upper_mono {k k' : UInt64} (h : k ≤ k') : upper k ≤ upper k' := by
  rw [upper_eq, upper_eq]
  exact Nat.div_le_div_right (UInt64.le_iff_toNat_le.mp h)

namespace Slot

variable {x y : Slot} {depth : Int}

/-- Both numbers of the slot have at most 32 bits. -/
def Narrow (x : Slot) : Prop :=
  x.depth < 0x100000000 ∧ x.index < 0x100000000

instance (x : Slot) : Decidable x.Narrow :=
  inferInstanceAs (Decidable (_ ∧ _))

/-- The slot as one word, the depth above the index. -/
def key (x : Slot) : UInt64 :=
  UInt64.ofNat x.depth <<< 32 ||| UInt64.ofNat x.index

theorem toNat_key (h : x.Narrow) : x.key.toNat = x.depth * 0x100000000 + x.index := by
  obtain ⟨hd, hi⟩ := h
  have hdepth : (UInt64.ofNat x.depth).toNat = x.depth :=
    UInt64.toNat_ofNat_of_lt' (Nat.lt_trans hd (by decide))
  have hindex : (UInt64.ofNat x.index).toNat = x.index :=
    UInt64.toNat_ofNat_of_lt' (Nat.lt_trans hi (by decide))
  have hshift : (UInt64.ofNat x.depth <<< 32).toNat = x.depth <<< 32 := by
    rw [UInt64.toNat_shiftLeft, hdepth]
    refine Nat.mod_eq_of_lt ?_
    show x.depth <<< 32 < _
    rw [Nat.shiftLeft_eq]
    omega
  rw [key, UInt64.toNat_or, hshift, hindex, ← Nat.shiftLeft_add_eq_or_of_lt hi, Nat.shiftLeft_eq]

theorem upper_key (h : x.Narrow) : upper x.key = x.depth := by
  have hi := h.2
  rw [upper_eq, toNat_key h]
  omega

/-- No two slots are packed into one word. -/
theorem key_inj (hx : x.Narrow) (hy : y.Narrow) : x.key = y.key ↔ x = y := by
  refine ⟨fun h => ?_, congrArg key⟩
  have hkey := congrArg UInt64.toNat h
  rw [toNat_key hx, toNat_key hy] at hkey
  have hi := hx.2
  have hj := hy.2
  have hdepth : x.depth = y.depth := by omega
  have hindex : x.index = y.index := by omega
  obtain ⟨d, i⟩ := x
  exact congrArg₂ mk hdepth hindex

theorem narrow_of (depth base : Int) : (Slot.of depth base).Narrow := by
  constructor <;> simp only [Slot.of] <;> omega

section

variable (h0 : 0 ≤ depth) (hlt : depth < 0x100000000)
include h0 hlt

theorem depth_of (base : Int) : ((Slot.of depth base).depth : Int) = depth := by
  simp only [Slot.of]
  omega

/-- The words before the first one of a depth are those with a lower upper half. -/
theorem lt_key_first (k : UInt64) : k < (Slot.of depth 0).key ↔ (upper k : Int) < depth := by
  have hd := depth_of h0 hlt 0
  have hfirst : (Slot.of depth 0).index = 0 := rfl
  rw [UInt64.lt_iff_toNat_lt, toNat_key (narrow_of depth 0), upper_eq]
  omega

end

end Slot

/-! ## Sweeps -/

namespace Assoc

variable {α : Type} {depth : Int}

/-- Deletes the keys at the front of a list, as long as they have the depth. -/
def sweepFrom (depth : Int) : List UInt64 → Assoc UInt64 α → Assoc UInt64 α
  | [], m => m
  | k :: ks, m => if (upper k : Int) = depth then sweepFrom depth ks (m.erase k) else m

/-- Deletes keys in increasing order, from the first key of the depth on. -/
def sweep (m : Assoc UInt64 α) (depth : Int) : Assoc UInt64 α :=
  let ahead := (m.entries.map Prod.fst).filter fun k => (Slot.of depth 0).key ≤ k
  sweepFrom depth (ahead.mergeSort (· ≤ ·)) m

/-- The map with its slots packed. -/
def pack (m : Assoc Slot α) : Assoc UInt64 α :=
  ⟨m.entries.map fun e => (e.1.key, e.2)⟩

/-- Where nothing of the depth is left, there is nothing to remove. -/
theorem filterKeys_upper_eq_self {m : Assoc UInt64 α}
    (h : ∀ e ∈ m.entries, (upper e.1 : Int) ≠ depth) :
    (m.filterKeys fun k => (upper k : Int) != depth) = m :=
  congrArg mk (List.filter_eq_self.mpr fun e he => bne_iff_ne.mpr (h e he))

/-- The depth is removed, if what is left of it lies ahead at each step. -/
theorem sweepFrom_eq {m : Assoc UInt64 α} {ks : List UInt64} (hsorted : ks.Pairwise (· ≤ ·))
    (hlow : ∀ k ∈ ks, depth ≤ upper k)
    (hahead : ∀ e ∈ m.entries, (upper e.1 : Int) = depth → e.1 ∈ ks) :
    sweepFrom depth ks m = m.filterKeys fun k => (upper k : Int) != depth := by
  induction ks generalizing m with
  | nil =>
    refine (filterKeys_upper_eq_self fun e he hd => ?_).symm
    cases hahead e he hd
  | cons k ks ih =>
    obtain ⟨hfirst, hsorted⟩ := List.pairwise_cons.mp hsorted
    obtain ⟨hk, hlow⟩ := List.forall_mem_cons.mp hlow
    rw [sweepFrom]
    split
    · next hd =>
      have hrest : ∀ e ∈ (m.erase k).entries, (upper e.1 : Int) = depth → e.1 ∈ ks := by
        intro e he hde
        obtain ⟨he, hne⟩ := List.mem_filter.mp he
        exact (List.mem_cons.mp (hahead e he hde)).resolve_left (of_decide_eq_true hne)
      rw [ih hsorted hlow hrest, filterKeys, erase, List.filter_filter]
      refine congrArg mk (List.filter_congr fun e _ => ?_)
      by_cases hde : (upper e.1 : Int) = depth
      · simp [hde]
      · have hne : e.1 ≠ k := fun h => hde (h ▸ hd)
        simp [hne]
    · next hd =>
      -- a later depth has begun, and all that follows is later as well
      refine (filterKeys_upper_eq_self fun e he hde => ?_).symm
      rcases List.mem_cons.mp (hahead e he hde) with rfl | hmem
      · exact hd hde
      · have := upper_mono (hfirst _ hmem)
        omega

section

variable (h0 : 0 ≤ depth) (hlt : depth < 0x100000000)
include h0 hlt

/-- A sweep removes exactly the keys of its depth. -/
theorem sweep_eq (m : Assoc UInt64 α) :
    m.sweep depth = m.filterKeys fun k => (upper k : Int) != depth := by
  have hseek : ∀ k, (Slot.of depth 0).key ≤ k ↔ depth ≤ upper k := fun k => by
    rw [← UInt64.not_lt, Slot.lt_key_first h0 hlt, Int.not_lt]
  refine sweepFrom_eq (List.pairwise_mergeSort' (· ≤ ·) _) (fun k hk => ?_) fun e he hd => ?_
  · simpa [hseek] using (List.mem_filter.mp (List.mem_mergeSort.mp hk)).2
  · refine List.mem_mergeSort.mpr (List.mem_filter.mpr ⟨List.mem_map_of_mem he, ?_⟩)
    simp [hseek, hd]

theorem sweep_pack {m : Assoc Slot α} (hm : ∀ e ∈ m.entries, e.1.Narrow) :
    m.pack.sweep depth = (m.filterKeys fun x => (x.depth : Int) != depth).pack := by
  rw [sweep_eq h0 hlt, pack, pack, filterKeys, filterKeys, List.filter_map]
  refine congrArg mk (congrArg (List.map _) (List.filter_congr fun e he => ?_))
  show ((upper e.1.key : Int) != depth) = _
  rw [Slot.upper_key (hm e he)]

end

/-- Packing keeps the values. -/
theorem get?_pack {m : Assoc Slot α} (hm : ∀ e ∈ m.entries, e.1.Narrow) {x : Slot} (hx : x.Narrow) :
    m.pack.get? x.key = m.get? x := by
  obtain ⟨es⟩ := m
  induction es with
  | nil => rfl
  | cons e es ih =>
    obtain ⟨he, hes⟩ := List.forall_mem_cons.mp hm
    have hrest := ih hes
    simp only [get?, pack, List.map_cons, List.find?_cons, Slot.key_inj he hx] at hrest ⊢
    by_cases h : e.1 = x
    · simp [h]
    · simpa [h] using hrest

end Assoc

namespace Memory

variable {m : Memory} {depth : Int}

/-- The slots of the memory have depths and indices of at most 32 bits. -/
structure Narrow (m : Memory) : Prop where
  locals : ∀ e ∈ m.locals.entries, e.1.Narrow
  addrs : ∀ e ∈ m.addrs.entries, e.1.Narrow

/-- Locals of other depths keep their values, also those behind addresses. -/
theorem lookup?_drop (m : Memory) (depth other base : Int) :
    (m.drop depth).lookup? other base =
      if ((Slot.of other base).depth : Int) = depth then none else m.lookup? other base := by
  generalize hx : Slot.of other base = x
  by_cases hd : (x.depth : Int) = depth
  · simp [lookup?, cellOf, get?, drop, Assoc.get?_filterKeys, hx, hd]
  · have haddrs : (m.drop depth).addrs.get? x = m.addrs.get? x := by
      simp [drop, Assoc.get?_filterKeys, hd]
    have hlocals : (m.drop depth).locals.get? x = m.locals.get? x := by
      simp [drop, Assoc.get?_filterKeys, hd]
    rw [lookup?, lookup?, hx, if_neg hd, cellOf, cellOf, haddrs]
    cases m.addrs.get? x with
    | none => simp only [get?, hlocals]
    | some a => rfl

/-- When a call depth ends, a memory keeps exactly the entries of other depths, with their values,
and everything behind pointers.  No local of the depth has a value any more, and all locals of other
depths have the values that they had.  Packed slots have the same values, and the sweeps over them
remove the depth. -/
theorem drop_exact (hm : m.Narrow) (h0 : 0 ≤ depth) (hlt : depth < 0x100000000) :
    (∀ x b, (m.drop depth).locals.get? x = some b ↔
        (x.depth : Int) ≠ depth ∧ m.locals.get? x = some b) ∧
      (∀ x a, (m.drop depth).addrs.get? x = some a ↔
        (x.depth : Int) ≠ depth ∧ m.addrs.get? x = some a) ∧
      (m.drop depth).pointees = m.pointees ∧
      (∀ base, (m.drop depth).lookup? depth base = none) ∧
      (∀ other, 0 ≤ other → other < 0x100000000 → other ≠ depth →
        ∀ base, (m.drop depth).lookup? other base = m.lookup? other base) ∧
      (∀ x : Slot, x.Narrow → m.locals.pack.get? x.key = m.locals.get? x ∧
        m.addrs.pack.get? x.key = m.addrs.get? x) ∧
      m.locals.pack.sweep depth = (m.drop depth).locals.pack ∧
      m.addrs.pack.sweep depth = (m.drop depth).addrs.pack := by
  refine ⟨fun x b => ?_, fun x a => ?_, rfl, fun base => ?_, fun other h0' hlt' hne base => ?_,
    fun x hx => ⟨Assoc.get?_pack hm.locals hx, Assoc.get?_pack hm.addrs hx⟩,
    Assoc.sweep_pack h0 hlt hm.locals, Assoc.sweep_pack h0 hlt hm.addrs⟩
  · rw [drop, Assoc.get?_filterKeys_eq_some, bne_iff_ne]
  · rw [drop, Assoc.get?_filterKeys_eq_some, bne_iff_ne]
  · rw [lookup?_drop, if_pos (Slot.depth_of h0 hlt base)]
  · rw [lookup?_drop, Slot.depth_of h0' hlt' base, if_neg hne]

/-- Slots next to each other in the order of words, at both ends of the range. -/
def extremes : Memory where
  locals := ⟨[(⟨0xffffffff, 0⟩, ⟨⟨0⟩, false⟩), (⟨0xfffffffe, 0xffffffff⟩, ⟨⟨1⟩, false⟩)]⟩
  addrs := ⟨[(⟨0xffffffff, 0xffffffff⟩, ⟨2⟩), (⟨0, 0⟩, ⟨3⟩)]⟩
  pointees := ⟨[(⟨2⟩, ⟨⟨4⟩, false⟩), (⟨3⟩, ⟨⟨5⟩, false⟩)]⟩

theorem extremes_drop_exact :
    extremes.Narrow ∧ extremes.lookup? 0xffffffff (-1) = some ⟨4⟩ ∧
      (extremes.drop 0xffffffff).lookup? 0xffffffff (-1) = none ∧
      (extremes.drop 0xffffffff).lookup? 0xfffffffe (-1) = some ⟨1⟩ ∧
      extremes.addrs.pack.sweep 0xffffffff = Assoc.pack ⟨[(⟨0, 0⟩, ⟨3⟩)]⟩ := by
  have hm : extremes.Narrow := ⟨by decide, by decide⟩
  obtain ⟨-, -, -, hgone, hkept, -, -, hsweep⟩ :=
    @drop_exact extremes 0xffffffff hm (by decide) (by decide)
  refine ⟨hm, rfl, hgone _, (hkept _ ?_ ?_ ?_ _).trans rfl, hsweep⟩ <;> decide

end Memory
end NullPath
