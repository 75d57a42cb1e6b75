import Sapphire.Vmm.Pages
import Mathlib.Data.List.GetD
import Mathlib.Data.List.Nodup
import Mathlib.Logic.Relation

/-! Runs of the virtual memory manager: calls of `alloc_pages`, and calls of `free_pages` on pages
that are all live.  A state carries the pages of every live allocation; `Tracks` says that the
bitmap marks these and that each of them is mapped to a frame.  Every step keeps it, also where
`alloc_frame` returns 0. -/

namespace Sapphire

open Machine

/-- The memory and the live allocations, each with the pages of the region that it still has. -/
structure VmmState where
  mem : Mem
  live : List (List Nat)

inductive VmmOp
  | alloc (numPages : BitVec 32)
  | free (addr numPages : BitVec 32)

/-- Page `i` of the region is one of the `numPages` pages from `addr` on. -/
def Freed (addr numPages : BitVec 32) (i : Nat) : Prop :=
  ∃ k < numPages.toNat, (addr + BitVec.ofNat 32 k * pageSize).toNat / 4096 = 0xD0000 + i

instance (addr numPages : BitVec 32) (i : Nat) : Decidable (Freed addr numPages i) :=
  inferInstanceAs (Decidable (∃ k < _, _))

namespace VmmState

/-- The pages of the live allocations. -/
def pages (s : VmmState) : List Nat := s.live.flatten

/-- The call `op`, which must free only live pages. -/
def Legal (s : VmmState) : VmmOp → Prop
  | .alloc _ => True
  | .free addr numPages => ∀ k < numPages.toNat, ∃ i ∈ s.pages,
      (addr + BitVec.ofNat 32 k * pageSize).toNat / 4096 = 0xD0000 + i

def apply (vmm : VMM) (s : VmmState) : VmmOp → VmmState
  | .alloc numPages =>
    let r := vmm.allocPages s.mem numPages
    ⟨r.1, if r.2 = 0 then s.live
      else List.range' ((r.2 - vmm.regionStart) / pageSize).toNat numPages.toNat :: s.live⟩
  | .free addr numPages =>
    ⟨vmm.freePages s.mem addr numPages,
      s.live.map fun A => A.filter fun i => ¬ Freed addr numPages i⟩

/-- Runs whose calls all satisfy `ok`. -/
def Runs (vmm : VMM) (ok : VmmState → VmmOp → Prop) : VmmState → VmmState → Prop :=
  Relation.ReflTransGen fun s s' => ∃ op, s.Legal op ∧ ok s op ∧ s' = s.apply vmm op

theorem Runs.step {vmm : VMM} {ok : VmmState → VmmOp → Prop} {s t : VmmState} {op : VmmOp}
    (hrun : Runs vmm ok s t) (hlegal : t.Legal op) (hok : ok t op) :
    Runs vmm ok s (t.apply vmm op) :=
  hrun.tail ⟨op, hlegal, hok, rfl⟩

/-- An invariant that the calls of a run keep holds in every state of it. -/
theorem Runs.induct {vmm : VMM} {ok : VmmState → VmmOp → Prop} {P : VmmState → Prop}
    (hstep : ∀ s op, P s → s.Legal op → ok s op → P (s.apply vmm op)) {s s' : VmmState}
    (hs : P s) (hrun : Runs vmm ok s s') : P s' := by
  induction hrun with
  | refl => exact hs
  | tail _ hlast ih =>
    obtain ⟨op, hlegal, hok, rfl⟩ := hlast
    exact hstep _ op ih hlegal hok

/-! The pages after an allocation of `n` pages from `start` on, and after their release. -/

theorem pages_cons {s t : VmmState} {start n : Nat}
    (hlive : t.live = List.range' start n :: s.live) :
    t.pages = List.range' start n ++ s.pages := by
  rw [pages, hlive, List.flatten_cons, pages]

theorem mem_pages_cons {s t : VmmState} {start n i : Nat}
    (hlive : t.live = List.range' start n :: s.live) :
    i ∈ t.pages ↔ (start ≤ i ∧ i < start + n) ∨ i ∈ s.pages := by
  rw [pages_cons hlive, List.mem_append, List.mem_range'_1]

theorem mem_pages_filter {s t : VmmState} {start n i : Nat}
    (hpages : t.pages = s.pages.filter fun i => ¬ (start ≤ i ∧ i < start + n)) :
    i ∈ t.pages ↔ i ∈ s.pages ∧ ¬ (start ≤ i ∧ i < start + n) := by
  rw [hpages, List.mem_filter, decide_eq_true_eq]

/-- A page of one of several allocations without a common page belongs to exactly one. -/
theorem countP_eq_one_iff {live : List (List Nat)} (h : live.flatten.Nodup) (i : Nat) :
    live.countP (fun A => i ∈ A) = 1 ↔ i ∈ live.flatten := by
  have hcount : live.countP (fun A => i ∈ A) = if i ∈ live.flatten then 1 else 0 := by
    induction live with
    | nil => rfl
    | cons A rest ih =>
      rw [List.flatten_cons, List.nodup_append] at h
      rw [List.countP_cons, ih h.2.1]
      by_cases hA : i ∈ A
      · have hrest : i ∉ rest.flatten := fun hr => h.2.2 i hA i hr rfl
        simp [hA, hrest]
      · simp [hA]
  rw [hcount]
  split <;> simp_all

end VmmState

namespace VMM

variable {vmm : VMM} {s : VmmState}

/-- The frame that page `i` of the region is mapped to. -/
def frameOf (vmm : VMM) (m : Mem) (i : Nat) : Nat :=
  (pageDown (vmm.pd.pte m (0xD0000 + i))).toNat / 4096

theorem frameOf_eq {m : Mem} {i f : Nat} (hf : f < 2 ^ 20)
    (h : vmm.pd.pte m (0xD0000 + i) = mapped (frameAddr f)) : vmm.frameOf m i = f := by
  rw [frameOf, h, pageDown_mapped (frameAddr_aligned f), page_frameAddr hf]

/-- The bitmap marks the pages of the live allocations, which have no page in common, and each of
them is mapped to a frame that `alloc_frame` may return, or to frame 0. -/
structure Tracks (vmm : VMM) (s : VmmState) : Prop where
  wired : vmm.pd.Wired s.mem
  nodup : s.pages.Nodup
  bound : ∀ i ∈ s.pages, i < 131072
  bits : ∀ i < 131072, vmm.used s.mem i = decide (i ∈ s.pages)
  frame : ∀ i ∈ s.pages, vmm.pd.pte s.mem (0xD0000 + i) = mapped (frameAddr (vmm.frameOf s.mem i)) ∧
    (vmm.frameOf s.mem i < vmm.fa.scanned ∨ vmm.frameOf s.mem i = 0)

/-! ### What one call does -/

/-- A call of `alloc_pages` changes nothing, or makes `numPages` free pages live. -/
theorem apply_alloc_cases (h : vmm.Laid) (hw : vmm.pd.Wired s.mem) (numPages : BitVec 32) :
    ((numPages = 0 ∨ ∀ start, ¬ vmm.FreeRange s.mem numPages.toNat start) ∧
      s.apply vmm (.alloc numPages) = s) ∨
    ∃ start, 0 < numPages.toNat ∧ vmm.FreeRange s.mem numPages.toNat start ∧
      (s.apply vmm (.alloc numPages)).live = List.range' start numPages.toNat :: s.live ∧
      vmm.framesTaken s.mem numPages = (List.range numPages.toNat).map
        (fun i => frameAddr ((vmm.fa.freeFrames s.mem).getD i 0)) ∧
      vmm.Backs s.mem (s.apply vmm (.alloc numPages)).mem start numPages.toNat ∧
      ∀ j < 131072, vmm.used (s.apply vmm (.alloc numPages)).mem j =
        if start ≤ j ∧ j < start + numPages.toNat then true else vmm.used s.mem j := by
  rcases allocPages_cases h hw numPages with ⟨hfull, hnone⟩ | ⟨start, hpos, ⟨hrange, -⟩, haddr, hrest⟩
  · refine Or.inl ⟨hfull, ?_⟩
    simp only [VmmState.apply, hnone, if_true]
  · refine Or.inr ⟨start, hpos, hrange, ?_, hrest⟩
    have hstart := hrange.1
    have hne : frameAddr (0xD0000 + start) ≠ 0 := by
      unfold frameAddr
      bv_omega
    have hidx : ((frameAddr (0xD0000 + start) - vmm.regionStart) / pageSize).toNat = start := by
      rw [h.regionStart, BitVec.toNat_udiv, frameAddr, show pageSize.toNat = 4096 from rfl]
      bv_omega
    rw [VmmState.apply]
    dsimp only
    rw [haddr, if_neg hne, hidx]

/-- The pages that a legal call of `free_pages` frees are live pages in a row. -/
theorem legal_free_cases (ht : vmm.Tracks s) {addr numPages : BitVec 32}
    (hlegal : s.Legal (.free addr numPages)) (hne : numPages.toNat ≠ 0) :
    ∃ start, addr.toNat / 4096 = 0xD0000 + start ∧ start + numPages.toNat ≤ 131072 ∧
      (∀ k < numPages.toNat, start + k ∈ s.pages) ∧
      ∀ i < 131072, Freed addr numPages i ↔ start ≤ i ∧ i < start + numPages.toNat := by
  obtain ⟨start, -, hstart⟩ := hlegal 0 (by omega)
  have haddr : addr.toNat / 4096 = 0xD0000 + start := by simpa using hstart
  have hlive : ∀ k, k < numPages.toNat → start + k < 131072 ∧ start + k ∈ s.pages := by
    intro k hk
    induction k with
    | zero =>
      obtain ⟨i, hi, heq⟩ := hlegal 0 hk
      have hbound := ht.bound i hi
      have hi0 : i = start + 0 := by omega
      rw [← hi0]
      exact ⟨hbound, hi⟩
    | succ k ih =>
      obtain ⟨i, hi, heq⟩ := hlegal (k + 1) hk
      have hbound := ht.bound i hi
      have hprev := (ih (by omega)).1
      rw [page_add haddr (by omega)] at heq
      rw [show start + (k + 1) = i by omega]
      exact ⟨hbound, hi⟩
  have hend := (hlive (numPages.toNat - 1) (by omega)).1
  refine ⟨start, haddr, by omega, fun k hk => (hlive k hk).2, fun i hi => ?_⟩
  constructor
  · rintro ⟨k, hk, heq⟩
    rw [page_add haddr (by omega)] at heq
    omega
  · rintro ⟨h1, h2⟩
    exact ⟨i - start, by omega, by rw [page_add haddr (by omega)]; omega⟩

/-- A legal call of `free_pages` changes nothing, or ends the life of pages in a row. -/
theorem apply_free_cases (h : vmm.Laid) (ht : vmm.Tracks s) {addr numPages : BitVec 32}
    (hlegal : s.Legal (.free addr numPages)) :
    (numPages.toNat = 0 ∧ s.apply vmm (.free addr numPages) = s) ∨
    ∃ start, addr.toNat / 4096 = 0xD0000 + start ∧ start + numPages.toNat ≤ 131072 ∧
      (∀ k < numPages.toNat, start + k ∈ s.pages) ∧
      (s.apply vmm (.free addr numPages)).pages =
        s.pages.filter (fun i => ¬ (start ≤ i ∧ i < start + numPages.toNat)) ∧
      vmm.Releases s.mem (s.apply vmm (.free addr numPages)).mem start numPages.toNat
        (fun k => vmm.frameOf s.mem (start + k)) ∧
      ∀ j < 131072, vmm.used (s.apply vmm (.free addr numPages)).mem j =
        if start ≤ j ∧ j < start + numPages.toNat then false else vmm.used s.mem j := by
  by_cases hne : numPages.toNat = 0
  · refine Or.inl ⟨hne, ?_⟩
    have hzero : numPages = 0 := BitVec.eq_of_toNat_eq hne
    have hnot : ∀ i, ¬ Freed addr 0 i := by
      rintro i ⟨k, hk, -⟩
      exact absurd hk (Nat.not_lt_zero k)
    have hkeep : ∀ A : List Nat, (A.filter fun i => ¬ Freed addr 0 i) = A := by
      intro A
      rw [List.filter_eq_self]
      intro i _
      exact decide_eq_true (hnot i)
    rw [hzero, VmmState.apply, freePages_zero]
    simp only [hkeep, List.map_id']
  · obtain ⟨start, haddr, hend, hlive, hfreed⟩ := legal_free_cases ht hlegal hne
    refine Or.inr ⟨start, haddr, hend, hlive, ?_, ?_⟩
    · simp only [VmmState.pages, VmmState.apply, ← List.filter_flatten]
      apply List.filter_congr
      intro i hi
      rw [decide_eq_decide, hfreed i (ht.bound i hi)]
    · exact freePages_spec h ht.wired haddr hend fun k hk => by
        have := ht.frame _ (hlive k hk)
        rwa [← Nat.add_assoc] at this

/-! ### Every run -/

theorem getD_freeFrames (fa : FrameAllocator) (m : Mem) (k : Nat) :
    (k < (fa.freeFrames m).length ∧ (fa.freeFrames m).getD k 0 < fa.scanned ∧
      fa.used m ((fa.freeFrames m).getD k 0) = false) ∨ (fa.freeFrames m).getD k 0 = 0 := by
  by_cases hk : k < (fa.freeFrames m).length
  · refine Or.inl ⟨hk, ?_⟩
    rw [List.getD_eq_getElem _ _ hk]
    exact FrameAllocator.mem_freeFrames.mp (List.getElem_mem hk)
  · exact Or.inr (List.getD_eq_default _ _ (by omega))

theorem Backs.pte_new {m m' : Mem} {start n k : Nat} (h : vmm.Backs m m' start n)
    (hn : start + n ≤ 131072) (hk : k < n) : vmm.pd.pte m' (0xD0000 + (start + k)) =
      mapped (frameAddr ((vmm.fa.freeFrames m).getD k 0)) := by
  rw [h.pte _ (by omega), if_pos (by omega),
    show 0xD0000 + (start + k) - (0xD0000 + start) = k by omega]

theorem Backs.pte_old {m m' : Mem} {start n i : Nat} (h : vmm.Backs m m' start n)
    (hi : i < 131072) (hout : ¬ (start ≤ i ∧ i < start + n)) :
    vmm.pd.pte m' (0xD0000 + i) = vmm.pd.pte m (0xD0000 + i) := by
  rw [h.pte _ (by omega), if_neg (by omega)]

theorem Releases.pte_old {m m' : Mem} {start n i : Nat} {frame : Nat → Nat}
    (h : vmm.Releases m m' start n frame) (hi : i < 131072)
    (hout : ¬ (start ≤ i ∧ i < start + n)) :
    vmm.pd.pte m' (0xD0000 + i) = vmm.pd.pte m (0xD0000 + i) := by
  rw [h.pte _ (by omega), if_neg (by omega)]

theorem frameOf_congr {m m' : Mem} {i : Nat}
    (h : vmm.pd.pte m' (0xD0000 + i) = vmm.pd.pte m (0xD0000 + i)) :
    vmm.frameOf m' i = vmm.frameOf m i := by
  rw [frameOf, h, frameOf]

/-- The pages that an allocation takes, with the frames that they get. -/
theorem Backs.frameOf_new (hl : vmm.Laid) {m m' : Mem} {start n k : Nat}
    (h : vmm.Backs m m' start n) (hn : start + n ≤ 131072) (hk : k < n) :
    vmm.frameOf m' (start + k) = (vmm.fa.freeFrames m).getD k 0 := by
  refine frameOf_eq ?_ (h.pte_new hn hk)
  have hscanned := hl.scanned_le
  rcases getD_freeFrames vmm.fa m k with ⟨-, hlt, -⟩ | hzero
  · omega
  · rw [hzero]
    decide

/-- A free range has no live page. -/
theorem Tracks.not_mem_range (ht : vmm.Tracks s) {start n i : Nat}
    (hrange : vmm.FreeRange s.mem n start) (hi : i ∈ s.pages) :
    ¬ (start ≤ i ∧ i < start + n) := by
  rintro ⟨h1, h2⟩
  have hfree := hrange.2 (i - start) (by omega)
  rw [show start + (i - start) = i by omega, ht.bits i (ht.bound i hi), decide_eq_true hi] at hfree
  cases hfree

theorem Tracks.alloc (h : vmm.Laid) (ht : vmm.Tracks s) (numPages : BitVec 32) :
    vmm.Tracks (s.apply vmm (.alloc numPages)) := by
  rcases apply_alloc_cases h ht.wired numPages with ⟨-, heq⟩ |
    ⟨start, -, hrange, hlive, -, hb, hbits⟩
  · rw [heq]
    exact ht
  set s' := s.apply vmm (.alloc numPages)
  have hn := hrange.1
  have hpages := VmmState.pages_cons hlive
  have hmem := fun i => VmmState.mem_pages_cons hlive (i := i)
  refine ⟨hb.wired, ?_, fun i hi => ?_, fun i hi => ?_, fun i hi => ?_⟩
  · rw [hpages, List.nodup_append]
    refine ⟨List.nodup_range', ht.nodup, fun a ha b hb' hab => ?_⟩
    rw [List.mem_range'_1] at ha
    exact ht.not_mem_range hrange hb' (hab ▸ ha)
  · rcases (hmem i).mp hi with hi | hi
    · omega
    · exact ht.bound i hi
  · rw [hbits i hi, ht.bits i hi]
    by_cases hin : start ≤ i ∧ i < start + numPages.toNat
    · simp [hin, hmem]
    · simp [hin, hmem]
  · rcases (hmem i).mp hi with hi | hi
    · obtain ⟨k, rfl⟩ : ∃ k, i = start + k := ⟨i - start, by omega⟩
      rw [hb.pte_new hn (by omega), hb.frameOf_new h hn (by omega)]
      refine ⟨rfl, ?_⟩
      rcases getD_freeFrames vmm.fa s.mem k with ⟨-, hlt, -⟩ | hzero
      · exact Or.inl hlt
      · exact Or.inr hzero
    · have hold := hb.pte_old (ht.bound i hi) (ht.not_mem_range hrange hi)
      rw [frameOf_congr hold, hold]
      exact ht.frame i hi

theorem Tracks.free (h : vmm.Laid) (ht : vmm.Tracks s) {addr numPages : BitVec 32}
    (hlegal : s.Legal (.free addr numPages)) : vmm.Tracks (s.apply vmm (.free addr numPages)) := by
  rcases apply_free_cases h ht hlegal with ⟨-, heq⟩ | ⟨start, -, hend, -, hpages, hrel, hbits⟩
  · rw [heq]
    exact ht
  set s' := s.apply vmm (.free addr numPages)
  have hmem := fun i => VmmState.mem_pages_filter hpages (i := i)
  refine ⟨hrel.wired, ?_, fun i hi => ?_, fun i hi => ?_, fun i hi => ?_⟩
  · rw [hpages]
    exact ht.nodup.filter _
  · exact ht.bound i ((hmem i).mp hi).1
  · rw [hbits i hi, ht.bits i hi]
    by_cases hin : start ≤ i ∧ i < start + numPages.toNat
    · simp [hin, hmem]
    · simp [hin, hmem]
  · obtain ⟨hi, hout⟩ := (hmem i).mp hi
    have hold := hrel.pte_old (ht.bound i hi) hout
    rw [frameOf_congr hold, hold]
    exact ht.frame i hi

theorem Tracks.step (h : vmm.Laid) (ht : vmm.Tracks s) {op : VmmOp} (hlegal : s.Legal op) :
    vmm.Tracks (s.apply vmm op) := by
  cases op with
  | alloc numPages => exact ht.alloc h numPages
  | free addr numPages => exact ht.free h hlegal

/-- A call changes no entry outside the region. -/
theorem Tracks.pte_outside (h : vmm.Laid) (ht : vmm.Tracks s) {op : VmmOp} (hlegal : s.Legal op)
    {p : Nat} (hp : p < 2 ^ 20) (hout : ¬ (0xD0000 ≤ p ∧ p < 0xF0000)) :
    vmm.pd.pte (s.apply vmm op).mem p = vmm.pd.pte s.mem p := by
  cases op with
  | alloc numPages =>
    rcases apply_alloc_cases h ht.wired numPages with ⟨-, heq⟩ | ⟨start, -, hrange, -, -, hb, -⟩
    · rw [heq]
    · have hn := hrange.1
      rw [hb.pte p hp, if_neg (by omega)]
  | free addr numPages =>
    rcases apply_free_cases h ht hlegal with ⟨-, heq⟩ | ⟨start, -, hend, -, -, hrel, -⟩
    · rw [heq]
    · rw [hrel.pte p hp, if_neg (by omega)]

theorem Tracks.run (h : vmm.Laid) {ok : VmmState → VmmOp → Prop} {s' : VmmState}
    (ht : vmm.Tracks s) (hrun : VmmState.Runs vmm ok s s') : vmm.Tracks s' :=
  hrun.induct (fun _ _ hinv hlegal _ => hinv.step h hlegal) ht

end VMM

end Sapphire
