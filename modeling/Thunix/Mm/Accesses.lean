import Thunix.Lib.Logged
import Thunix.Mm.Layout

/-!
# The headers a call touches

`mm/malloc.c` once more, with every load and store of a header field written out and
the address of the header logged. A pointer may be `NULL` or lead anywhere: the log says
so. The functions keep the names of their originals with an `L`, and
`Thunix.Mm.runs_mallocL` and `Thunix.Mm.runs_freeL` say that they compute what
`Thunix.Mm.malloc` and `Thunix.Mm.free` do.

The same two theorems bound the log. They ask, of the places `W`, exactly for the
headers the code goes through on the way it takes, so that a caller who knows where
those are has only to say that they are in `W`.
-/

namespace Thunix.Mm

open Logged

/-- A program on the heap that logs the headers it touches. -/
abbrev HeapM (α : Type) := Prog Heap ℕ α

/-! ### Loads and stores -/

/-- Load from the header at `mm`. -/
def load {α : Type} (mm : ℕ) (f : Mem → α) : HeapM α := visit mm fun h => (f h.mem, h)

/-- Store to the header at `mm`. -/
def store (mm : ℕ) (f : Mem → Mem) : HeapM Unit :=
  visit mm fun h => ((), { h with mem := f h.mem })

/-- `mm->prev`. -/
def readPrev (mm : ℕ) : HeapM ℕ := load mm fun m => prevOf m mm

/-- `mm->size`, as the word stored. -/
def readSize (mm : ℕ) : HeapM UInt32 := load mm fun m => m (mm + 4)

/-- `mm->free`. -/
def readFree (mm : ℕ) : HeapM UInt32 := load mm fun m => freeOf m mm

/-- `mm->prev = p`. -/
def writePrev (mm p : ℕ) : HeapM Unit := store mm fun m => setPrev m mm p

/-- `mm->size = n`. -/
def writeSize (mm : ℕ) (n : ℤ) : HeapM Unit := store mm fun m => setSize m mm n

/-- `mm->size += n`, a load and a store of one word. -/
def growSizeBy (mm : ℕ) (n : UInt32) : HeapM Unit := store mm fun m => addSize m mm n

/-- `mm->free = f`. -/
def writeFree (mm : ℕ) (f : UInt32) : HeapM Unit := store mm fun m => setFree m mm f

/-- `next_start`, which is no header. -/
def readStart : HeapM ℕ := quiet fun h => (h.nextStart, h)

/-- `next_start = mm`. -/
def writeStart (mm : ℕ) : HeapM Unit := quiet fun h => ((), { h with nextStart := mm })

/-! ### The functions of the allocator -/

/-- `get_next`. -/
def getNextL (mm : ℕ) : HeapM ℕ := do
  let size ← readSize mm
  let next := (mm + size.toNat) % 2 ^ 32
  pure (if memEnd ≤ next then 0 else next)

/-- `if (mm) mm->prev = p`. -/
def linkPrevL (mm p : ℕ) : HeapM Unit := if mm ≠ 0 then writePrev mm p else pure ()

/-- `merge_front`. -/
def mergeFrontL (mm prev : ℕ) : HeapM ℕ := do
  let next ← getNextL mm
  let n ← readSize mm
  growSizeBy prev n
  linkPrevL next prev
  pure prev

/-- `merge_back`. -/
def mergeBackL (mm next : ℕ) : HeapM ℕ := do
  writeFree mm 1
  let n ← readSize next
  growSizeBy mm n
  let next ← getNextL next
  linkPrevL next mm
  pure mm

/-- `merge_both`. -/
def mergeBothL (mm prev next : ℕ) : HeapM ℕ := do
  let n ← readSize mm
  let n' ← readSize next
  growSizeBy prev (n + n')
  let next ← getNextL next
  linkPrevL next prev
  pure prev

/-- `try_merge_front`. -/
def tryMergeFrontL (mm : ℕ) : HeapM ℕ := do
  writeFree mm 1
  let prev ← readPrev mm
  let f ← readFree prev
  if f ≠ 0 then mergeFrontL mm prev else pure mm

/-- `try_merge_back`. -/
def tryMergeBackL (mm : ℕ) : HeapM ℕ := do
  let next ← getNextL mm
  writeFree mm 1
  let f ← readFree next
  if f ≠ 0 then do
    let _ ← mergeBackL mm next
    pure mm
  else pure mm

/-- `next->free && next->size >= size_needed`. -/
def fitsL (need : ℤ) (next : ℕ) : HeapM Bool := do
  let f ← readFree next
  if f ≠ 0 then do
    let n ← readSize next
    pure (decide (need ≤ toInt n))
  else pure false

/-- The search loop of `malloc`. -/
def firstFitL (need : ℤ) : ℕ → ℕ → HeapM (Option ℕ)
  | 0, _ => pure none
  | fuel + 1, next =>
    if next = 0 then pure (some 0)
    else do
      let fits ← fitsL need next
      if fits = true then pure (some next)
      else do
        let next ← getNextL next
        firstFitL need fuel next

/-- The part of `malloc` after a block with enough room has been settled on. -/
def carveL (good : ℕ) (need : ℤ) : HeapM Unit := do
  let total ← readSize good
  writeFree good 0
  if toInt total = need then do
    let next ← getNextL good
    writeStart next
  else do
    writeSize good need
    let next ← getNextL good
    if next = 0 then writeStart memory
    else do
      writeSize next (toInt total - need)
      let rest ← readSize next
      if toInt rest ≤ sizeofMemStruct then do
        writeSize good (toInt total)
        let next ← getNextL good
        writeStart next
      else do
        writePrev next good
        writeFree next 1
        writeStart next
        let after ← getNextL next
        linkPrevL after next

/-- `malloc`, from the end of the search on. -/
def settleL (need : ℤ) (start : ℕ) : Option ℕ → HeapM (Option ℕ)
  | none => pure none
  | some found => do
    let good := if found = 0 then start else found
    let n ← readSize good
    if toInt n < need then pure (some 0)
    else do
      carveL good need
      pure (some (good + sizeofMemStruct))

/-- `malloc`; `none` is a search that does not end. -/
def mallocL (size : ℤ) : HeapM (Option ℕ) := do
  let need := sizeNeeded size
  let start ← readStart
  let found ← firstFitL need walkFuel start
  settleL need start found

/-- The branches of `free`. Both `prev->free` and `next->free` are loaded whichever way
the three conditions of the source go. -/
def releaseL (mm prev next : ℕ) : HeapM ℕ :=
  if prev = 0 then tryMergeBackL mm
  else if next = 0 then tryMergeFrontL mm
  else do
    let pf ← readFree prev
    let nf ← readFree next
    if pf ≠ 0 ∧ nf = 0 then do
      let _ ← mergeFrontL mm prev
      pure mm
    else if pf = 0 ∧ nf ≠ 0 then do
      let _ ← mergeBackL mm next
      pure mm
    else if pf ≠ 0 ∧ nf ≠ 0 then do
      let _ ← mergeBothL mm prev next
      pure mm
    else do
      writeFree mm 1
      pure mm

/-- `free`. -/
def freeL (ptr : ℕ) : HeapM Unit := do
  let mm := ptr - sizeofMemStruct
  let prev ← readPrev mm
  let next ← getNextL mm
  let f ← readFree mm
  if f = 1 then pure ()
  else do
    let mm ← releaseL mm prev next
    let start ← readStart
    if mm < start then writeStart mm else pure ()

/-! ### What they compute, and where -/

variable {W : ℕ → Prop} {h : Heap} {mm prev next : ℕ}

theorem runs_load {α : Type} (f : Mem → α) (hm : W mm) : Runs W (load mm f) h (f h.mem) h :=
  .visit _ hm

theorem runs_store (f : Mem → Mem) (hm : W mm) :
    Runs W (store mm f) h () { h with mem := f h.mem } :=
  .visit _ hm

theorem runs_getNextL (hm : W mm) : Runs W (getNextL mm) h (getNext h.mem mm) h :=
  (runs_load _ hm).bind (.pure _)

theorem runs_linkPrevL {p : ℕ} (hm : mm ≠ 0 → W mm) :
    Runs W (linkPrevL mm p) h () { h with mem := linkPrev h.mem mm p } := by
  rw [linkPrevL, linkPrev]
  by_cases h0 : mm ≠ 0
  · rw [if_pos h0, if_pos h0]
    exact runs_store _ (hm h0)
  · rw [if_neg h0, if_neg h0]
    exact .pure _

theorem runs_mergeFrontL (hm : W mm) (hp : W prev)
    (hn : getNext h.mem mm ≠ 0 → W (getNext h.mem mm)) :
    Runs W (mergeFrontL mm prev) h prev { h with mem := (mergeFront h.mem mm prev).2 } :=
  (runs_getNextL hm).bind <| (runs_load _ hm).bind <| (runs_store _ hp).bind <|
    (runs_linkPrevL hn).bind (.pure _)

theorem runs_mergeBackL {m : Mem}
    (hmem : m = addSize (setFree h.mem mm 1) mm (setFree h.mem mm 1 (next + 4)))
    (hm : W mm) (hx : W next) (hn : getNext m next ≠ 0 → W (getNext m next)) :
    Runs W (mergeBackL mm next) h mm { h with mem := (mergeBack h.mem mm next).2 } := by
  subst hmem
  exact (runs_store _ hm).bind <| (runs_load _ hx).bind <| (runs_store _ hm).bind <|
    (runs_getNextL hx).bind <| (runs_linkPrevL hn).bind (.pure _)

theorem runs_mergeBothL {m : Mem}
    (hmem : m = addSize h.mem prev (h.mem (mm + 4) + h.mem (next + 4))) (hm : W mm) (hp : W prev)
    (hx : W next) (hn : getNext m next ≠ 0 → W (getNext m next)) :
    Runs W (mergeBothL mm prev next) h prev { h with mem := (mergeBoth h.mem mm prev next).2 } := by
  subst hmem
  exact (runs_load _ hm).bind <| (runs_load _ hx).bind <| (runs_store _ hp).bind <|
    (runs_getNextL hx).bind <| (runs_linkPrevL hn).bind (.pure _)

theorem runs_tryMergeFrontL {m : Mem} (hmem : m = setFree h.mem mm 1) (hm : W mm)
    (hp : W (prevOf m mm)) (hn : getNext m mm ≠ 0 → W (getNext m mm)) :
    Runs W (tryMergeFrontL mm) h (tryMergeFront h.mem mm).1
      { h with mem := (tryMergeFront h.mem mm).2 } := by
  subst hmem
  refine (runs_store _ hm).bind <| (runs_load _ hm).bind <| (runs_load _ hp).bind ?_
  rw [tryMergeFront]
  split
  · exact runs_mergeFrontL (h := { h with mem := setFree h.mem mm 1 }) hm hp hn
  · exact .pure _

theorem runs_tryMergeBackL {m m' : Mem} (hmem : m = setFree h.mem mm 1)
    (hnext : next = getNext h.mem mm)
    (hmem' : m' = addSize (setFree m mm 1) mm (setFree m mm 1 (next + 4))) (hm : W mm)
    (hx : W next) (hn : getNext m' next ≠ 0 → W (getNext m' next)) :
    Runs W (tryMergeBackL mm) h (tryMergeBack h.mem mm).1
      { h with mem := (tryMergeBack h.mem mm).2 } := by
  subst hmem hnext hmem'
  refine (runs_getNextL hm).bind <| (runs_store _ hm).bind <| (runs_load _ hx).bind ?_
  rw [tryMergeBack]
  split
  · exact (runs_mergeBackL (h := { h with mem := setFree h.mem mm 1 }) rfl hm hx hn).bind (.pure _)
  · exact .pure _

/-! ### Release -/

/-- The branches of `free`: the block that `mm` ends up as, and the memory. -/
def release (m : Mem) (mm prev next : ℕ) : ℕ × Mem :=
  if prev = 0 then tryMergeBack m mm
  else if next = 0 then tryMergeFront m mm
  else if freeOf m prev ≠ 0 ∧ freeOf m next = 0 then (mm, (mergeFront m mm prev).2)
  else if freeOf m prev = 0 ∧ freeOf m next ≠ 0 then (mm, (mergeBack m mm next).2)
  else if freeOf m prev ≠ 0 ∧ freeOf m next ≠ 0 then (mm, (mergeBoth m mm prev next).2)
  else (mm, setFree m mm 1)

theorem free_eq (h : Heap) {ptr : ℕ} {r : ℕ × Mem} (hmm : mm = ptr - sizeofMemStruct)
    (hr : r = release h.mem mm (prevOf h.mem mm) (getNext h.mem mm)) :
    free h ptr = if freeOf h.mem mm = 1 then h
      else { mem := r.2, nextStart := if r.1 < h.nextStart then r.1 else h.nextStart } := by
  subst hmm hr
  rfl

/-- The headers a release of the block at `mm` goes through: its own, its neighbours',
and the one after the next, which is looked up when other headers have been changed. -/
structure ReleaseIn (W : ℕ → Prop) (m : Mem) (mm prev next : ℕ) : Prop where
  /-- The block. -/
  block : W mm
  /-- The block before it. -/
  before : prev ≠ 0 → W prev
  /-- The block after it, which the release of a first block loads without a check. -/
  behind : next ≠ 0 ∨ prev = 0 → W next
  /-- The block after that. -/
  after : next ≠ 0 ∨ prev = 0 → ∀ m' : Mem,
    (mm + 12 ≤ next → prev + 12 ≤ next → m' (next + 4) = m (next + 4)) →
      getNext m' next ≠ 0 → W (getNext m' next)

theorem runs_releaseL (hin : ReleaseIn W h.mem mm prev next) (hp : prev = prevOf h.mem mm)
    (hn : next = getNext h.mem mm) :
    Runs W (releaseL mm prev next) h (release h.mem mm prev next).1
      { h with mem := (release h.mem mm prev next).2 } := by
  rw [releaseL, release]
  by_cases hp0 : prev = 0
  · rw [if_pos hp0, if_pos hp0]
    refine runs_tryMergeBackL rfl hn rfl hin.block (hin.behind (Or.inr hp0))
      (hin.after (Or.inr hp0) _ fun h1 _ => ?_)
    simp (disch := omega) only [addSize, setFree, put_ne]
  rw [if_neg hp0, if_neg hp0]
  by_cases hn0 : next = 0
  · rw [if_pos hn0, if_pos hn0]
    refine runs_tryMergeFrontL rfl hin.block ?_ ?_
    · have : prevOf (setFree h.mem mm 1) mm = prev := by
        rw [prevOf, setFree, put_ne (by omega), hp, prevOf]
      exact this ▸ hin.before hp0
    · rw [getNext, setFree, put_ne (by omega), ← getNext, ← hn]
      exact fun h => absurd hn0 h
  rw [if_neg hn0, if_neg hn0]
  have hW := hin.before hp0
  have hW' := hin.behind (Or.inl hn0)
  refine (runs_load _ hW).bind <| (runs_load _ hW').bind ?_
  split
  · exact (runs_mergeFrontL hin.block hW (hn ▸ fun _ => hW')).bind (.pure _)
  split
  · refine (runs_mergeBackL rfl hin.block hW' (hin.after (Or.inl hn0) _ fun h1 _ => ?_)).bind
      (.pure _)
    simp (disch := omega) only [addSize, setFree, put_ne]
  split
  · refine (runs_mergeBothL rfl hin.block hW hW' (hin.after (Or.inl hn0) _ fun _ h2 => ?_)).bind
      (.pure _)
    exact put_ne (by omega)
  · exact (runs_store _ hin.block).bind (.pure _)

/-- **The text of `free` computes `free`**, and touches the headers it has to. -/
theorem runs_freeL {ptr : ℕ} (hmm : mm = ptr - sizeofMemStruct)
    (hin : ReleaseIn W h.mem mm (prevOf h.mem mm) (getNext h.mem mm)) :
    Runs W (freeL ptr) h () (free h ptr) := by
  rw [free_eq h hmm rfl]
  subst hmm
  refine (runs_load _ hin.block).bind <| (runs_getNextL hin.block).bind <|
    (runs_load _ hin.block).bind ?_
  split
  · exact .pure _
  · refine (runs_releaseL hin rfl rfl).bind <| (Runs.quiet _).bind ?_
    split
    · exact .quiet _
    · exact .pure _

/-! ### Allocation -/

theorem runs_fitsL {need : ℤ} (hx : W next) : Runs W (fitsL need next) h
    (decide (freeOf h.mem next ≠ 0 ∧ need ≤ sizeOf h.mem next)) h := by
  refine (runs_load _ hx).bind ?_
  by_cases hf : freeOf h.mem next ≠ 0
  · rw [if_pos hf, decide_eq_decide.mpr (and_iff_right hf)]
    exact (runs_load _ hx).bind (.pure _)
  · rw [if_neg hf, decide_eq_false (fun hc => hf hc.1)]
    exact .pure _

/-- **The search** stays inside of `W` when it starts at, and `get_next` leads from one
to the other of, places that are `NULL` or in `W`. -/
theorem runs_firstFitL {P : ℕ → Prop} {need : ℤ}
    (hP : ∀ x, P x → x ≠ 0 → W x ∧ P (getNext h.mem x)) {fuel : ℕ} (hx : P next) :
    Runs W (firstFitL need fuel next) h (firstFit h.mem need fuel next) h := by
  induction fuel generalizing next with
  | zero => exact .pure _
  | succ fuel ih =>
    rw [firstFitL, firstFit]
    by_cases h0 : next = 0
    · rw [if_pos h0, if_pos h0]
      exact .pure _
    rw [if_neg h0, if_neg h0]
    obtain ⟨hW, hnext⟩ := hP next hx h0
    refine (runs_fitsL hW).bind ?_
    by_cases hf : freeOf h.mem next ≠ 0 ∧ need ≤ sizeOf h.mem next
    · rw [if_pos (decide_eq_true hf), if_pos hf]
      exact .pure _
    · rw [if_neg (by simpa using hf), if_neg hf]
      exact (runs_getNextL hW).bind (ih hnext)

/-- The headers `malloc` goes through once it has settled on `good`: the remainder behind
it, at `next`, and the one after the remainder. -/
structure CarveIn (W : ℕ → Prop) (m : Mem) (good : ℕ) (need : ℤ) (next : ℕ) : Prop where
  /-- The remainder. -/
  rest : sizeOf m good ≠ need → next ≠ 0 → W next
  /-- The block after it. -/
  after : ∀ m' : Mem, m' (next + 4) = ofInt (sizeOf m good - need) →
    (sizeofMemStruct : ℤ) < toInt (ofInt (sizeOf m good - need)) →
    getNext m' next ≠ 0 → W (getNext m' next)

theorem runs_carveL {good : ℕ} {need : ℤ} (hg : W good)
    (hn : next = getNext (setSize (setFree h.mem good 0) good need) good)
    (hin : CarveIn W h.mem good need next) :
    Runs W (carveL good need) h () (carve h good need) := by
  rw [carve]
  refine (runs_load _ hg).bind <| (runs_store _ hg).bind <| .cond Iff.rfl (fun _ => ?_) fun hex =>
    ?_
  · exact (runs_getNextL hg).bind (.quiet _)
  simp only [← hn]
  refine (runs_store _ hg).bind <| (runs_getNextL hg).bind ?_
  rw [← hn]
  refine .cond Iff.rfl (fun _ => .quiet _) fun h0 => ?_
  have hx := hin.rest hex h0
  obtain ⟨m, hm⟩ : ∃ m, m = setSize (setSize (setFree h.mem good 0) good need) next
    (sizeOf h.mem good - need) := ⟨_, rfl⟩
  have hrest : m (next + 4) = ofInt (sizeOf h.mem good - need) := by
    rw [hm, setSize, put_self]
  rw [← hm]
  refine (runs_store _ hx).bind <| (runs_load _ hx).bind ?_
  refine .cond (by rw [sizeOf, hm]; rfl) (fun _ => ?_) fun hle => ?_
  · rw [hm]
    exact (runs_store _ hg).bind <| (runs_getNextL hg).bind (.quiet _)
  · have hafter := hin.after (setFree (setPrev m next good) next 1) ?_ ?_
    · rw [hm] at hafter ⊢
      exact (runs_store _ hx).bind <| (runs_store _ hx).bind <| (Runs.quiet _).bind <|
        (runs_getNextL hx).bind (runs_linkPrevL hafter)
    · simp (disch := omega) only [setFree, setPrev, put_ne]
      exact hrest
    · rw [← hrest]
      exact not_le.mp hle

/-- **The text of `malloc` computes `malloc`**, and touches the headers it has to. -/
theorem runs_mallocL {size need : ℤ} {found good : ℕ} {r : ℕ × Heap}
    (hneed : need = sizeNeeded size)
    (hff : firstFit h.mem need walkFuel h.nextStart = some found) (hgood : good = goodOf h found)
    (hsearch : Runs W (firstFitL need walkFuel h.nextStart) h (some found) h) (hg : W good)
    (hin : need ≤ sizeOf h.mem good →
      CarveIn W h.mem good need (getNext (setSize (setFree h.mem good 0) good need) good))
    (hr : malloc h size = some r) : Runs W (mallocL size) h (some r.1) r.2 := by
  subst hneed hgood
  simp only [malloc, hff, Option.bind_eq_bind, Option.bind_some] at hr
  refine (Runs.quiet _).bind <| hsearch.bind <| (runs_load _ hg).bind ?_
  change Runs W (if sizeOf h.mem (goodOf h found) < sizeNeeded size then pure (some 0) else do
    carveL (goodOf h found) (sizeNeeded size)
    pure (some (goodOf h found + sizeofMemStruct))) h (some r.1) r.2
  by_cases hlt : sizeOf h.mem (goodOf h found) < sizeNeeded size
  · rw [if_pos hlt] at hr ⊢
    obtain rfl := Option.some.inj hr
    exact .pure _
  · rw [if_neg hlt] at hr ⊢
    obtain rfl := Option.some.inj hr
    exact (runs_carveL hg rfl (hin (not_lt.mp hlt))).bind (.pure _)

/-! ### The text is the model -/

/-- The two texts of `malloc` agree, on every heap. -/
theorem mallocL_eq (h : Heap) (size : ℤ) (log : List ℕ) :
    (mallocL size (h, log)).1 = (malloc h size).map Prod.fst ∧
      (mallocL size (h, log)).2.1 = ((malloc h size).map Prod.snd).getD h := by
  have hsearch : Runs (fun _ => True) (firstFitL (sizeNeeded size) walkFuel h.nextStart) h
      (firstFit h.mem (sizeNeeded size) walkFuel h.nextStart) h :=
    runs_firstFitL (P := fun _ => True) (fun _ _ _ => ⟨trivial, trivial⟩) trivial
  cases hff : firstFit h.mem (sizeNeeded size) walkFuel h.nextStart with
  | none =>
    have hr : malloc h size = none := by simp [malloc, hff]
    obtain ⟨es, hes, -⟩ : Runs (fun _ => True) (mallocL size) h none h :=
      (Runs.quiet _).bind <| (hff ▸ hsearch).bind (.pure _)
    rw [hes, hr]
    exact ⟨rfl, rfl⟩
  | some found =>
    obtain ⟨r, hr⟩ : ∃ r, malloc h size = some r := by
      simp only [malloc, hff, Option.bind_eq_bind, Option.bind_some]
      split <;> exact ⟨_, rfl⟩
    obtain ⟨es, hes, -⟩ := runs_mallocL (W := fun _ => True) rfl hff rfl (hff ▸ hsearch) trivial
      (fun _ => ⟨fun _ _ => trivial, fun _ _ _ _ => trivial⟩) hr
    rw [hes, hr]
    exact ⟨rfl, rfl⟩

/-- So do those of `free`. -/
theorem freeL_eq (h : Heap) (ptr : ℕ) (log : List ℕ) : (freeL ptr (h, log)).2.1 = free h ptr := by
  obtain ⟨es, hes, -⟩ : Runs (fun _ => True) (freeL ptr) h () (free h ptr) :=
    runs_freeL rfl ⟨trivial, fun _ => trivial, fun _ => trivial, fun _ _ _ _ => trivial⟩
  rw [hes]

end Thunix.Mm
