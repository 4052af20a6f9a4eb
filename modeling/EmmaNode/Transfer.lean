import EmmaNode.ReadFrame
import EmmaNode.LockState

/-! When a block of a PUT or POST is taken: it gets as far as the write function of its
root. All other blocks are dropped, or answered with an error. -/

namespace EmmaNode

namespace State
variable (P : Platform) (s : State) (rq : Request) (uri : Text)

def atWrite : State := if rq.blockNum = 0 then s.startTransfer P uri else s

/-- The block is written. -/
def Taken : Prop :=
  ¬(rq.method = .post ∧ s.store.emmaResourceExists uri ∧ s.locked = 0) ∧ rq.payload ≠ [] ∧
    (rq.blockNum = 0 → s.locked = 0) ∧ ¬(s.atWrite P rq uri).lost rq.blockNum ∧
    (s.atWrite P rq uri).locked ≠ 0 ∧ (s.atWrite P rq uri).opened ≠ 0 ∧
    rq.blockNum.toUInt64 ≠ (s.atWrite P rq uri).count

instance : Decidable (s.Taken P rq uri) := inferInstanceAs (Decidable (_ ∧ _))

end State

/-- The status says that a block has been taken. -/
def Reply.success (r : Reply) : Prop := r.status = some .ok ∨ r.status = some .created

instance (r : Reply) : Decidable r.success := inferInstanceAs (Decidable (_ ∨ _))

namespace State
variable {P : Platform} {s : State} {rq : Request} {uri : Text}

theorem setClocktime_same (s : State) (uri : Text) : s.store.Same (s.setClocktime uri).store := by
  simp only [setClocktime, Store.emmaResourceSetClocktime]
  split <;> exact ⟨.refl _, rfl, rfl, rfl⟩

theorem setLastModified_same (s : State) (uri : Text) (key : Modifier) :
    s.store.Same (s.setLastModified uri key).store ∧
      (s.setLastModified uri key).calculator = s.calculator ∧
      (s.setLastModified uri key).env = s.env := by
  unfold setLastModified
  split <;> exact ⟨⟨.refl _, rfl, rfl, rfl⟩, rfl, rfl⟩

theorem handlePut_taken (taken : s.Taken P rq uri) (r : Reply) :
    s.handlePut P rq uri r = (s.atWrite P rq uri).takeBlock P rq uri (r.setBlock1 rq) := by
  obtain ⟨fresh, filled, free, near, locked, opened, unknown⟩ := taken
  have block : (s.atWrite P rq uri).handleBlock P rq uri (r.setBlock1 rq) =
      (s.atWrite P rq uri).takeBlock P rq uri (r.setBlock1 rq) := by
    simp only [handleBlock, if_neg near, if_pos locked, if_pos opened, if_neg unknown]
  simp only [handlePut, if_neg fresh, if_neg filled]
  rw [← block, atWrite]
  split
  · rename_i first
    simp [free first]
  · rfl

theorem handleBlock_not_taken {u : State} (h : ¬(¬u.lost rq.blockNum ∧ u.locked ≠ 0 ∧ u.opened ≠ 0 ∧
    rq.blockNum.toUInt64 ≠ u.count)) (r : Reply) :
    (u.handleBlock P rq uri r).2.status = r.status := by
  unfold handleBlock
  split_ifs with near locked opened unknown
  · rfl
  · rfl
  · exact absurd ⟨near, locked, opened, unknown⟩ h
  · rfl
  · rfl

theorem handlePut_not_taken (taken : ¬s.Taken P rq uri) :
    ¬(s.handlePut P rq uri (.init rq)).2.success := by
  unfold Taken at taken
  unfold handlePut
  by_cases there : rq.method = .post ∧ s.store.emmaResourceExists uri ∧ s.locked = 0
  · simp only [if_pos there]
    simp [Reply.success, Reply.drop, Reply.setBlock1, Reply.init]
  by_cases empty : rq.payload = []
  · simp [if_neg there, empty, handleEmpty, finish, Reply.success]
  simp only [there, empty, if_false, not_false_eq_true, true_and, ne_eq] at taken ⊢
  have quiet {u : State} (h : ¬(¬u.lost rq.blockNum ∧ u.locked ≠ 0 ∧ u.opened ≠ 0 ∧
      rq.blockNum.toUInt64 ≠ u.count)) :
      ¬(u.handleBlock P rq uri ((Reply.init rq).setBlock1 rq)).2.success := by
    simp only [Reply.success, handleBlock_not_taken h]
    simp [Reply.setBlock1, Reply.init]
  by_cases first : rq.blockNum = 0
  · simp only [first, if_true, forall_const] at taken ⊢
    by_cases free : s.locked = 0
    · simp only [free, not_true_eq_false, if_false, true_and] at taken ⊢
      refine quiet fun h => taken ?_
      simpa [atWrite, first] using h
    · rw [if_pos free]
      simp [Reply.success, Reply.drop, Reply.setBlock1, Reply.init]
  · simp only [first, if_false, false_implies, true_and] at taken ⊢
    refine quiet fun h => taken ?_
    simpa [atWrite, first] using h

theorem takeBlock_status (r : Reply) : (s.takeBlock P rq uri r).2.status = some
    (if rq.method = .post ∧ ¬rq.more then .created
      else if s.full P rq uri then .ok else .badRequest) := by
  simp only [takeBlock, writeBlock_eq]
  by_cases more : rq.more = true <;> by_cases full : s.full P rq uri <;>
    by_cases post : rq.method = .post <;> simp [more, full, post, finish]

end State
end EmmaNode
