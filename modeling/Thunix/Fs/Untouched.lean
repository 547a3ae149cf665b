import Thunix.Fs.BitmapErrors
import Thunix.Fs.Coherence
import Thunix.Fs.Dir

/-!
# What a call has touched

Whether a call that reports an error has left things as they were is a question about the
disk and the bitmaps. The bits that are set or cleared are recorded in the log, and so are the
blocks that are written, so that this can be told in any state, whatever the cache holds
(`Thunix.Fs.Untouched`): a request for a block may put out any entry, also the one that holds
the bitmap. The log only grows, so that what has been changed stays changed
(`Thunix.Fs.Later.length_le`).

Requests for blocks touch nothing (`Thunix.Fs.getCacheBlock_untouched`). Of
`tfs_alloc_block` there are three outcomes, and in the two of them in which nothing is
touched it has not got hold of the bitmap or finds no number in it
(`Thunix.Fs.tfsAllocBlock_touch`).
-/

namespace Thunix.Fs

open Pool

variable {e : Env} {d d' d'' d₀ : Dev} {t : ℕ}

/-! ### The measure -/

/-- The number of the bit that has been set or cleared. -/
def Event.flipped : Event → Option ℕ
  | .flip nr => some nr
  | _ => none

/-- The bits of the bitmaps that have been set or cleared, in order. -/
def Dev.flips (d : Dev) : List ℕ := d.log.filterMap Event.flipped

/-- The number of the block that has been written. -/
def Event.stored : Event → Option ℕ
  | .store _ m => some m.block
  | _ => none

/-- The blocks that have been written, in order, also those whose write has failed. -/
def Dev.stores (d : Dev) : List ℕ := d.log.filterMap Event.stored

/-- The disk and the bitmaps are as before, and no block has been written. -/
structure Untouched (d d' : Dev) : Prop where
  disk : d'.disk = d.disk
  flips : d'.flips = d.flips
  stores : d'.stores = d.stores

theorem Untouched.refl (d : Dev) : Untouched d d := ⟨rfl, rfl, rfl⟩

theorem Untouched.trans (h : Untouched d d') (h' : Untouched d' d'') : Untouched d d'' :=
  ⟨h'.disk.trans h.disk, h'.flips.trans h.flips, h'.stores.trans h.stores⟩

/-- The same with an inode: its size and its blocks are as before. -/
structure Unchanged (inode inode' : Inode) (d d' : Dev) : Prop where
  iSize : inode'.iSize = inode.iSize
  iData : inode'.iData = inode.iData
  dev : Untouched d d'

/-! ### What touches nothing -/

theorem relink_untouched (last cs : CacheRef) (d : Dev) : Untouched d (relink last cs d) := by
  constructor
  · rw [(relinked_relink last cs d).rest]
  · rw [Dev.flips, (relinked_relink last cs d).rest]
    rfl
  · rw [Dev.stores, (relinked_relink last cs d).rest]
    rfl

/-- **A request for a block** touches nothing, whether it is granted or not. -/
theorem getCacheBlock_untouched (e : Env) (sb : TfsSbInfo) (b : ℕ) (d : Dev) :
    Untouched d (getCacheBlock e sb b d).2 := by
  unfold getCacheBlock
  dsimp only
  split
  · exact .refl d
  · split
    · exact relink_untouched _ _ d
    · obtain ⟨m, t, h, -⟩ := tfsBread_frame e sb b (d.cache (d.cache .head).next).data d
      generalize tfsBread e sb b (d.cache (d.cache .head).next).data d = r at h
      obtain ⟨res, d'⟩ := r
      obtain rfl := h
      have hload : ∀ cache victim moved, Untouched d
          { d with cache, cacheData := m, ticks := t, log := d.log ++ [.load victim moved] } := by
        refine fun cache victim moved => ⟨rfl, ?_, ?_⟩
        · rw [Dev.flips, List.filterMap_append]
          exact List.append_nil _
        · rw [Dev.stores, List.filterMap_append]
          exact List.append_nil _
      dsimp only
      split
      · exact hload _ _ _
      · exact (hload _ _ _).trans (relink_untouched _ _ _)

/-- The walk of an insertion. -/
theorem addEntryLoop_untouched (ws : List ℕ) (index : ℕ) (d : Dev) :
    Untouched d (addEntryLoop e ws index d).2 := by
  induction ws generalizing index d with
  | nil => exact .refl d
  | cons block rest ih =>
    have hget := getCacheBlock_untouched e e.sbi block d
    rw [addEntryLoop, DevM.bind_apply]
    generalize getCacheBlock e e.sbi block d = q at hget
    obtain ⟨_ | cs, d₁⟩ := q
    · exact hget
    · dsimp only at hget ⊢
      rw [DevM.bind_apply, DevM.bind_apply]
      refine hget.trans ?_
      generalize hq : readMem (fun m => freeInBlock m (entriesPerBlock e) (dataPtr cs d₁).1)
        (dataPtr cs d₁).2 = q
      obtain ⟨res, d₂⟩ := q
      obtain rfl : d₁ = d₂ := congrArg Prod.snd hq
      cases res with
      | some de => exact .refl d₁
      | none =>
        dsimp only
        by_cases hzero : rest.headD 0 = 0
        · rw [if_pos hzero]
          exact .refl d₁
        · rw [if_neg hzero]
          exact ih (index + 1) d₁

theorem findPlace_untouched (dir : Inode) (d : Dev) : Untouched d (findPlace e dir d).2 := by
  unfold findPlace
  by_cases hzero : dir.iData.getD 0 0 = 0
  · rw [if_pos hzero]
    exact .refl d
  · rw [if_neg hzero, DevM.bind_apply]
    exact .trans (⟨rfl, rfl, rfl⟩ : Untouched d d.tick) (addEntryLoop_untouched _ _ _)

/-- A write of a block sets no bit. -/
theorem tfsBwrite_flips (undone : Bool) (e : Env) (sbi : TfsSbInfo) (b a : ℕ) (d : Dev) :
    (tfsBwriteTagged undone e sbi b a d).2.flips = d.flips := by
  obtain ⟨disk, t, m, hrun, -⟩ := tfsBwriteTagged_run undone e sbi b a d
  rw [hrun, Dev.flips, List.filterMap_append]
  exact List.append_nil _

theorem tfsBwrite_eq_zero_iff (undone : Bool) (e : Env) (b a : ℕ) (d : Dev) :
    (tfsBwriteTagged undone e e.sbi b a d).1 = 0 ↔ WriteOk e d.ticks :=
  floppyWritesLoop_eq_zero_iff e _ _ _ d

/-- The block can be had, and then written. -/
def Writable (e : Env) (b : ℕ) (d : Dev) : Prop :=
  (getCacheBlock e e.sbi b d).1 ≠ none ∧ WriteOk e (getCacheBlock e e.sbi b d).2.ticks

/-! ### The log only grows -/

/-- What the log held before is still in it. -/
def Later (d₀ d : Dev) : Prop := ∃ es, d.log = d₀.log ++ es

theorem Later.refl (d : Dev) : Later d d := ⟨[], (List.append_nil _).symm⟩

theorem Later.of_log (h : Later d₀ d) {es : List Event} (hlog : d'.log = d.log ++ es) :
    Later d₀ d' := by
  obtain ⟨es₀, hes₀⟩ := h
  exact ⟨es₀ ++ es, by rw [hlog, hes₀, List.append_assoc]⟩

/-- Of what is recorded there is not less. -/
theorem Later.length_le {α : Type} (h : Later d₀ d) (f : Event → Option α) :
    (d₀.log.filterMap f).length ≤ (d.log.filterMap f).length := by
  obtain ⟨es, hes⟩ := h
  rw [hes, List.filterMap_append, List.length_append]
  exact Nat.le_add_right _ _

theorem later_getCacheBlock (sb : TfsSbInfo) (b : ℕ) :
    Preserves (Later d₀) (getCacheBlock e sb b) := fun d h => by
  obtain ⟨es, hes⟩ := getCacheBlock_append e sb b d
  exact h.of_log hes

theorem later_tfsBwrite (undone : Bool) (b a : ℕ) :
    Preserves (Later d₀) (tfsBwriteTagged undone e e.sbi b a) := fun d h => by
  obtain ⟨disk, t, m, hrun, -⟩ := tfsBwriteTagged_run undone e e.sbi b a d
  rw [hrun]
  exact h.of_log rfl

theorem later_tfsAllocBlock (t : ℕ) : Preserves (Later d₀) (tfsAllocBlock e t) := by
  refine (later_getCacheBlock _ _).bind fun res => ?_
  cases res with
  | none => exact .pure _ _
  | some cs =>
    refine Preserves.bind (fun _ h => h) fun bitmap => Preserves.bind (fun _ h => h) fun taken => ?_
    refine Preserves.bind ?_ fun k => .ite ?_ (.pure _ _)
    · cases taken with
      | false => exact .pure _ _
      | true => exact fun _ h => h
    · refine Preserves.bind (fun d h => h.of_log rfl) fun _ => ?_
      exact (later_tfsBwrite _ _ _).bind fun res => .ite (.pure _ _) (.pure _ _)

/-! ### Allocating a block -/

/-- The bitmap of the blocks can be had, and the number settled on is this one. -/
def Settles (e : Env) (t k : ℕ) (d : Dev) : Prop :=
  ∃ cs d₁, tfsReadBlockBitmap e d = (some cs, d₁) ∧
    Chosen (8 * e.sbi.sBlockSize) t (d₁.bitmapOf cs) k

/-- The bitmap of the blocks cannot be had. -/
def Unread (e : Env) (d : Dev) : Prop := (tfsReadBlockBitmap e d).1 = none

/-- A number has been taken: its bit was clear, and is set. -/
def Taken (e : Env) (d d' : Dev) : Prop :=
  ∃ cs d₁ k, tfsReadBlockBitmap e d = (some cs, d₁) ∧ d₁.bitmapOf cs k = false ∧
    d'.bitmapOf cs = Function.update (d₁.bitmapOf cs) k true ∧ d'.flips = d.flips ++ [k]

theorem Taken.flips_ne (h : Taken e d d') : d'.flips ≠ d.flips := fun hsame => by
  obtain ⟨cs, d₁, k, -, -, -, hflips⟩ := h
  have := congrArg List.length (hflips.symm.trans hsame)
  rw [List.length_append, List.length_singleton] at this
  omega

/-- Once the bitmap is there, `tfs_alloc_block` looks for a number in it. -/
theorem tfsAllocBlock_read {cs : CacheRef} {d₁ : Dev}
    (hreq : tfsReadBlockBitmap e d = (some cs, d₁)) : tfsAllocBlock e t d = (do
      let k ← findTarget e (d₁.bitmapOf cs t) (d₁.cache cs).data t
      if k ≠ minusOne then do
        let _ ← setBitAt (d₁.cache cs).data k
        let res ← tfsBwrite e e.sbi e.sbi.sBlockBitmap (d₁.cache cs).data
        if res < 0 then pure res else pure (toS32 k)
      else pure (-ENOSPC) : DevM ℤ) d₁ := by
  have hbits : BitmapIs d₁.cache d₁.cacheEntries cs (d₁.bitmapOf cs) d₁ := ⟨rfl, rfl, rfl⟩
  have htaken : decide (testBit d₁.cacheData (d₁.cache cs).data t ≠ 0) = d₁.bitmapOf cs t :=
    (taken_bitmap d₁ hbits).1
  rw [tfsAllocBlock, DevM.bind_apply, hreq]
  dsimp only
  rw [DevM.bind_apply, DevM.bind_apply]
  exact congrArg (fun taken => (findTarget e taken (d₁.cache cs).data t >>= _) d₁) htaken

/-- **The outcomes of `tfs_alloc_block`**: the bitmap is not to be had, or no number is found
in it, or one is taken. -/
theorem tfsAllocBlock_touch (hs : Sized e.sbi) (t : ℕ) (d : Dev) :
    (Unread e d ∧ (tfsAllocBlock e t d).1 = - EIO ∧ Untouched d (tfsAllocBlock e t d).2) ∨
    (¬Unread e d ∧ Settles e t minusOne d ∧ (tfsAllocBlock e t d).1 = -ENOSPC ∧
      Untouched d (tfsAllocBlock e t d).2) ∨
    (¬Unread e d ∧ ¬Settles e t minusOne d ∧ Taken e d (tfsAllocBlock e t d).2) := by
  have hget : Untouched d (tfsReadBlockBitmap e d).2 := getCacheBlock_untouched e _ _ d
  rcases hreq : tfsReadBlockBitmap e d with ⟨_ | cs, d₁⟩
  · rw [hreq] at hget
    refine .inl ⟨congrArg Prod.fst hreq, ?_⟩
    rw [tfsAllocBlock, DevM.bind_apply, hreq]
    exact ⟨rfl, hget⟩
  · rw [hreq] at hget
    have hread : ¬Unread e d := fun h => by
      rw [Unread, hreq] at h
      cases h
    have hbits : BitmapIs d₁.cache d₁.cacheEntries cs (d₁.bitmapOf cs) d₁ := ⟨rfl, rfl, rfl⟩
    obtain ⟨k, hrun, hch⟩ : ∃ k, findTarget e (d₁.bitmapOf cs t) (d₁.cache cs).data t d₁ = (k, d₁) ∧
        Chosen (8 * e.sbi.sBlockSize) t (d₁.bitmapOf cs) k := by
      refine ⟨_, Prod.ext rfl ?_, (findTarget_bitmap hs d₁ hbits).2⟩
      cases d₁.bitmapOf cs t <;> rfl
    rw [tfsAllocBlock_read hreq, DevM.bind_apply, hrun]
    dsimp only
    rcases eq_or_ne k minusOne with rfl | hk
    · rw [if_neg (not_not.mpr rfl)]
      exact .inr (.inl ⟨hread, ⟨cs, d₁, hreq, hch⟩, rfl, hget⟩)
    · rw [if_pos hk]
      refine .inr (.inr ⟨hread, ?_, cs, d₁, k, hreq, hch.free hk, ?_⟩)
      · rintro ⟨cs', d₁', hreq', hch'⟩
        obtain ⟨hcs, rfl⟩ := Prod.mk.inj (hreq.symm.trans hreq')
        obtain rfl := Option.some.inj hcs
        exact hk (hch.unique rfl (fun _ _ => rfl) hch')
      · have hset : BitmapIs d₁.cache d₁.cacheEntries cs (Function.update (d₁.bitmapOf cs) k true)
            (setBitAt (d₁.cache cs).data k d₁).2 := setBitAt_bitmap d₁ hbits
        rw [DevM.bind_apply]
        have hflips : (setBitAt (d₁.cache cs).data k d₁).2.flips = d.flips ++ [k] := by
          rw [← hget.flips]
          exact List.filterMap_append
        generalize (setBitAt (d₁.cache cs).data k d₁).2 = d₂ at hset hflips
        -- the write changes no bit, whatever comes of it
        have hwrite := tfsBwrite_flips false e e.sbi e.sbi.sBlockBitmap (d₁.cache cs).data d₂
        obtain ⟨disk, tick, m, hrun, -⟩ :=
          tfsBwriteTagged_run false e e.sbi e.sbi.sBlockBitmap (d₁.cache cs).data d₂
        rw [DevM.bind_apply, tfsBwrite, hrun]
        rw [hrun] at hwrite
        have hafter : ∀ x : ℤ, ∀ s : Dev,
            ((if x < 0 then pure x else pure (toS32 k) : DevM ℤ) s).2 = s := fun x s => by
          by_cases hx : x < 0
          · rw [if_pos hx]
            rfl
          · rw [if_neg hx]
            rfl
        rw [hafter]
        exact ⟨hset.bitmapOf, hwrite.trans hflips⟩

end Thunix.Fs
