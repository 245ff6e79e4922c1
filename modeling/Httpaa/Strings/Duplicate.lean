import Httpaa.Strings.Content

/-!
# A copy of a string

`stringaa_copy` copies the whole buffer of the source, without its terminator, and then takes over
the write position. Whatever the destination was before, it has a buffer of its own afterwards; a
source without a buffer is not copied.
-/

namespace Httpaa.Traced

variable {m m' : Memory} {s1 s2 t : Stringaa} {q : Ptr} {n block : Nat}

/-- What a destination may be: linked, never used, or the owner of an allocation that is not that of
the source. -/
def OwnsApart (h : Heap) (s1 : Stringaa) (q : Ptr) : Prop :=
  s1.isAlloc = true → ∃ block, s1.buf = some ⟨block, 0⟩ ∧ block < h.next ∧
    s1.bufSize ≤ h.size block ∧ block ≠ q.block

/-- The destination with a buffer of its own for `n` characters and a NUL. -/
structure Prepared (m : Memory) (q : Ptr) (n : Nat) (m' : Memory) (t : Stringaa) (block : Nat) :
    Prop where
  buf : t.buf = some ⟨block, 0⟩
  isAlloc : t.isAlloc = true
  room : n + 1 ≤ t.bufSize
  size : t.bufSize ≤ m'.heap.size block
  beside : m.heap.SameBeside m'.heap block
  behind : ∀ i, t.bufSize ≤ i → m'.heap.bytes block i = m.heap.bytes block i
  accesses : m.Accesses m'
  apart : block ≠ q.block
  kept : m'.heap.size q.block = m.heap.size q.block

private theorem stringaaMalloc_prepared (hs1 : OwnsApart m.heap s1 q) (hq : q.block < m.heap.next)
    (hset : s1.isAlloc = true → s1.bufSize < n + 1) :
    ∃ m' t, stringaaMalloc m s1 (n + 1) = (true, m', t) ∧ Prepared m q n m' t m.heap.next := by
  have hnext : m.heap.next ≠ q.block := Nat.ne_of_gt hq
  have hmalloc : 0 < n + 1 ∧ ((s1.isAlloc ∧ s1.bufSize < n + 1) ∨ ¬ s1.isAlloc) := by
    refine ⟨Nat.succ_pos n, ?_⟩
    cases halloc : s1.isAlloc with
    | false => exact .inr (by decide)
    | true => exact .inl ⟨rfl, hset halloc⟩
  let t : Stringaa :=
    { buf := some ⟨m.heap.next, 0⟩, bufSize := n + 1, isAlloc := true, isNullTerminated := true }
  let heap := if s1.isAlloc then (m.heap.malloc (n + 1)).2.free s1.buf else
    (m.heap.malloc (n + 1)).2
  have heq : stringaaMalloc m s1 (n + 1) =
      (true, { m with heap }.touch 0 (n + 1) (n + 1), t) := by
    simp only [stringaaMalloc, Httpaa.stringaaMalloc, if_pos hmalloc]
    rfl
  have hheap : heap.next = m.heap.next + 1 ∧ heap.bytes = (m.heap.malloc (n + 1)).2.bytes ∧
      heap.size m.heap.next = n + 1 ∧ heap.size q.block = m.heap.size q.block := by
    cases halloc : s1.isAlloc with
    | false => simp [heap, halloc, Heap.malloc, hnext.symm]
    | true =>
        obtain ⟨block, hbuf, hblock, -, hapart⟩ := hs1 halloc
        simp [heap, halloc, hbuf, Heap.free, Heap.malloc, hnext.symm, Ne.symm hapart,
          Nat.ne_of_gt hblock]
  obtain ⟨hnext', hbytes, hsize, hkept⟩ := hheap
  refine ⟨_, t, heq, rfl, rfl, Nat.le_refl _, Nat.le_of_eq hsize.symm, ⟨?_, fun b hb => ?_⟩,
    fun i hi => ?_, ?_, hnext, hkept⟩
  · exact (Nat.le_succ _).trans_eq hnext'.symm
  · have hsame := (m.heap.malloc_sameBeside (n + 1)).bytes b hb
    exact (congrFun hbytes b).trans hsame
  · have hnot : ¬ i < n + 1 := Nat.not_lt.mpr hi
    refine (congrFun (congrFun hbytes m.heap.next) i).trans ?_
    exact if_neg fun h => hnot h.2
  · exact (Memory.Accesses.refl m).touch (Nat.le_of_eq (Nat.zero_add _)) heap

/-- The two tests of the size agree: a buffer that has room is kept. -/
theorem prepared_of_copy (hs1 : OwnsApart m.heap s1 q) (hq : q.block < m.heap.next) (n : Nat) :
    ∃ m' t block, (if ¬ s1.isAlloc ∨ s1.bufSize ≤ n + 1 then (stringaaMalloc m s1 (n + 1)).2
      else (m, s1)) = (m', t) ∧ Prepared m q n m' t block := by
  by_cases hset : s1.isAlloc = true → s1.bufSize < n + 1
  · obtain ⟨m', t, heq, hprepared⟩ := stringaaMalloc_prepared hs1 hq hset
    refine ⟨m', t, _, ?_, hprepared⟩
    rw [if_pos, heq]
    by_cases halloc : s1.isAlloc = true
    · exact .inr (Nat.le_of_lt (hset halloc))
    · exact .inl halloc
  · obtain ⟨halloc, hroom⟩ := Classical.not_imp.mp hset
    obtain ⟨block, hbuf, -, hsize, hapart⟩ := hs1 halloc
    refine ⟨m, s1, block, ?_, hbuf, halloc, Nat.le_of_not_lt hroom, hsize, .refl _ _,
      fun _ _ => rfl, .refl m, hapart, rfl⟩
    split
    · simp [stringaaMalloc, Httpaa.stringaaMalloc, halloc, hroom]
    · rfl

/-- 1 is returned, the destination has the content of the source in a buffer of its own, with room
for its terminator and written below its size only, and the buffer of the source is as before. -/
def Copies (m : Memory) (s2 : Stringaa) (q : Ptr) (result : Bool × Memory × Stringaa) : Prop :=
  result.1 = true ∧ content result.2.1 result.2.2 = content m s2 ∧
    WritesOwn m result.2.1 result.2.2 ∧ (∀ p, result.2.2.buf = some p → p.block ≠ q.block) ∧
    result.2.1.heap.bytes q.block = m.heap.bytes q.block ∧
    result.2.1.heap.size q.block = m.heap.size q.block

/-- Every initialised string with a buffer is copied, into every destination. -/
theorem stringaaCopy_copies (m : Memory) (s1 s2 : Stringaa) (q : Ptr) (hinit : s2.isInit = true)
    (hbuf : s2.buf = some q) (hq : q.block < m.heap.next)
    (hroom : s2.writePos + s2.isNullTerminated.toNat ≤ s2.bufSize)
    (hs1 : OwnsApart m.heap s1 q) : Copies m s2 q (stringaaCopy m s1 s2) := by
  obtain ⟨m', t, block, heq, hprepared⟩ :=
    prepared_of_copy hs1 hq (s2.bufSize - s2.isNullTerminated.toNat)
  -- the characters that are copied, the content of the source in front
  let full := content m { s2 with writePos := s2.bufSize - s2.isNullTerminated.toNat }
  have hlength : full.length = s2.bufSize - s2.isNullTerminated.toNat := content_length ..
  rw [← hlength] at heq hprepared
  have hcopy : stringaaCopy m s1 s2 =
      (true, written m' t (stringChars s2 0) 0 full.length,
        { t with writePos := s2.writePos, readPos := 0, isInit := true }) := by
    rw [stringaaCopy, if_neg (by simp [hbuf, hinit]), stringaaCopyCharsSize,
      if_neg (by simp [stringChars, hbuf]), ← hlength, heq]
    simp [written]
  have hfull : m'.heap.Holds q full :=
    hprepared.beside.holds (content_holds m (s := { s2 with writePos := _ }) hbuf)
      (Ne.symm hprepared.apart)
  have hheap : (written m' t (stringChars s2 0) 0 full.length).heap =
      m'.heap.storeAll ⟨block, 0⟩ (full ++ terminator t) :=
    written_heap hprepared.buf fun _ => ⟨q, hbuf, hfull⟩
  have hnull := Bool.toNat_le t.isNullTerminated
  have hfits : full.length + t.isNullTerminated.toNat ≤ t.bufSize := by
    have hroom' := hprepared.room
    omega
  have hbeside : m.heap.SameBeside (written m' t (stringChars s2 0) 0 full.length).heap block := by
    rw [hheap]
    exact hprepared.beside.trans (storeAll_sameBeside _ _ _)
  have hle : s2.writePos ≤ full.length := by omega
  have htake : full.take s2.writePos = content m s2 := by
    rw [hlength] at hle
    simp [full, content, ← List.map_take, List.take_range, Nat.min_eq_left hle]
  rw [hcopy]
  refine ⟨rfl, ?_, ⟨hprepared.isAlloc, ?_, ?_, block, hprepared.buf, ?_, hbeside, fun i hi => ?_⟩,
    fun p hp => ?_, hbeside.bytes _ (Ne.symm hprepared.apart), ?_⟩
  · rw [← htake]
    refine content_eq hprepared.buf ?_ ?_
    · rw [List.length_take, Nat.min_eq_left hle]
    · have hall := (Heap.holds_nil (h := m'.heap) (p := ⟨block, 0⟩)).storeAll_behind
        (b := full ++ terminator t)
      rw [List.nil_append, List.length_nil, Ptr.add_zero, ← hheap] at hall
      have htext := (Heap.holds_append.mp hall).1
      exact (htext.prefix_iff.mp (List.take_prefix s2.writePos full)).2
  · show s2.writePos + t.isNullTerminated.toNat ≤ t.bufSize
    omega
  · refine written_accesses hprepared.accesses ?_ ?_
    · rwa [Nat.zero_add]
    · simp only [stringChars, hlength]
      omega
  · rw [hheap]
    exact hprepared.size
  · rw [hheap, storeAll_behind]
    · exact hprepared.behind i hi
    · rw [List.length_append, terminator_length, Nat.zero_add]
      exact hfits.trans hi
  · have heq := hprepared.buf.symm.trans hp
    cases heq
    exact hprepared.apart
  · rw [hheap]
    exact hprepared.kept

/-- `ab`, copied into a string that was never used. -/
theorem stringaaCopy_copies_unused :
    Copies ⟨Heap.ofText [97, 98], []⟩ (Stringaa.ofText 0 2) ⟨0, 0⟩
      (stringaaCopy ⟨Heap.ofText [97, 98], []⟩ {} (Stringaa.ofText 0 2)) :=
  stringaaCopy_copies _ _ _ _ rfl rfl Nat.one_pos (Nat.le_refl _) fun h => absurd h (by decide)

/-- `stringaa_init` with no size initialises a string without a buffer, and that is not copied. -/
theorem stringaaCopy_refusesNoBuffer : ¬ ∀ (m : Memory) (s1 s2 : Stringaa), s2.isInit = true →
    s2.writePos + s2.isNullTerminated.toNat ≤ s2.bufSize →
      (∀ q, s2.buf = some q → OwnsApart m.heap s1 q) → (stringaaCopy m s1 s2).1 = true := by
  intro hclaim
  have hcopy := hclaim ⟨Heap.ofText [], []⟩ {} (stringaaInit ⟨Heap.ofText [], []⟩ 0).2.2 rfl
    (Nat.le_refl _) fun q hq => by cases hq
  exact absurd hcopy (by decide)

end Httpaa.Traced
