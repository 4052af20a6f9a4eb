import EmmaNode.CoapPacket
import EmmaNode.Dispatch

/-! The requests of the client. One is put together for each block that is sent, and no other
step of the client touches it. -/

namespace EmmaNode
namespace System
variable (P : Platform) (s : System)

theorem acquireFrom_request (fuel : Nat) :
    (s.acquireFrom fuel).client.request = s.client.request := by
  induction fuel generalizing s with
  | zero => rfl
  | succ fuel ih =>
    rw [acquireFrom]
    split
    · rfl
    · split
      · exact ih _
      · split
        · rfl
        · split
          · rfl
          · exact ih _

theorem releaseFrom_request (fuel : Nat) :
    (s.releaseFrom fuel).client.request = s.client.request := by
  induction fuel generalizing s with
  | zero => rfl
  | succ fuel ih =>
    rw [releaseFrom]
    split
    · rfl
    · exact ih _

theorem mainTurn_request : s.mainTurn.client.request = s.client.request := by
  rw [mainTurn]
  split
  · split <;> rfl
  · rfl
  · exact acquireFrom_request _ _
  · rfl
  · exact releaseFrom_request _ _

theorem readPre_request (stop : Int) (fuel : Nat) (start : Int) :
    (s.readPre P stop fuel start).client.request = s.client.request := by
  induction fuel generalizing s start with
  | zero => rfl
  | succ fuel ih =>
    simp only [readPre]
    split
    · split
      · rfl
      · exact ih _ _
    · rfl

theorem evaluatePre_request : (s.evaluatePre P).client.request = s.client.request := by
  simp only [evaluatePre]
  split
  · rfl
  · split <;> split <;> exact readPre_request P _ _ _ _

theorem nextTarget_request (range : Option (Int × Int)) :
    (s.nextTarget P range).client.request = s.client.request := by
  simp only [nextTarget]
  split <;> rfl

theorem startAgent_request : (s.startAgent P).client.request = s.client.request := by
  simp only [startAgent]
  split
  · exact (nextTarget_request P _ _).trans (evaluatePre_request P s)
  · exact evaluatePre_request P s

theorem nextAgent_request : s.nextAgent.client.request = s.client.request := by
  simp only [nextAgent]
  split <;> rfl

theorem agentHead_request : (s.agentHead P).client.request = s.client.request := by
  simp only [agentHead]
  split
  · split
    · exact nextAgent_request _
    · exact startAgent_request P _
  · rfl

theorem seekContent_request (fuel : Nat) :
    (s.seekContent P fuel).client.request = s.client.request := by
  induction fuel generalizing s with
  | zero => rfl
  | succ fuel ih =>
    simp only [seekContent]
    split
    · exact ih _
    · rfl

theorem targetHead_request : (s.targetHead P).client.request = s.client.request := by
  simp only [targetHead]
  split
  · exact seekContent_request P _ _
  · exact nextAgent_request s

theorem endTarget_request : (s.endTarget P).client.request = s.client.request := by
  simp only [endTarget]
  split
  · rfl
  · exact nextTarget_request P s none

theorem blockHead_request : (s.blockHead P).client.request = s.client.request := by
  simp only [blockHead]
  split
  · rfl
  · rfl
  · exact endTarget_request P s

theorem preprocessStep_request : (s.preprocessStep P).client.request = s.client.request := by
  simp only [preprocessStep]
  split <;> rfl

theorem afterBlock_request : (s.afterBlock P).client.request = s.client.request := by
  simp only [afterBlock]
  split
  · rfl
  · exact endTarget_request P _

theorem answered_request : (s.answered P).client.request = s.client.request := by
  simp only [answered]
  split
  · exact afterBlock_request P s
  · exact endTarget_request P _

end System

/-- A request that is put together fits into the message it is sent in. -/
structure ClientRequest.Fits (request : ClientRequest) : Prop where
  method : request.method ≠ .get
  uri : request.uri.length ≤ emmaMaxUriSize
  payload : request.payload.length ≤ restMaxChunkSize
  size : request.block1.size = restMaxChunkSize.toUInt16
  num : request.block1.num ≤ 0x0FFFFF

theorem ClientRequest.Fits.takesBlock {request : ClientRequest} (h : request.Fits) :
    CoapPacket.takesBlock request.block1.num request.block1.size :=
  ⟨by rw [h.size]; decide, by rw [h.size]; decide, h.num⟩

namespace System
variable {P : Platform} {s s' : System} {e : Event}

theorem nextRequest_fits : s.nextRequest.Fits where
  method := by
    have sent : ∀ method : ClientMethod, method.request ≠ .get := fun method => by
      cases method <;> decide
    exact sent _
  uri := by
    refine Nat.le_trans (List.takeWhile_sublist _).length_le ?_
    rw [List.length_map, List.length_range]
  payload := List.length_take_le _ _
  size := rfl
  num := by
    have := s.client.postBlockNum.toNat_lt
    rw [UInt32.le_iff_toNat_le, nextRequest, UInt16.toNat_toUInt32]
    exact Nat.le_trans (Nat.le_of_lt this) (by decide)

theorem clientStep_request (h : s.clientStep P = some s') :
    s'.client.request = s.client.request ∨ s'.client.request = some s.nextRequest := by
  rw [clientStep] at h
  split at h
  case h_6 => exact .inr (Option.some.inj h ▸ sendBlock_request s)
  case h_7 => cases h
  all_goals
    obtain rfl := Option.some.inj h
    left
  · exact s.mainTurn_request
  · exact s.agentHead_request P
  · exact s.targetHead_request P
  · exact s.blockHead_request P
  · exact s.preprocessStep_request P
  · exact s.answered_request P

theorem step_request (h : s.step P e = some s') :
    s'.client.request = s.client.request ∨ s'.client.request = some s.nextRequest := by
  unfold step at h
  split at h
  · cases h
  cases e with
  | client => exact clientStep_request h
  | environment env =>
    obtain rfl := Option.some.inj h
    exact .inl rfl
  | _ =>
    simp only [Option.ite_none_right_eq_some, Option.some.injEq] at h
    obtain ⟨-, rfl⟩ := h
    exact .inl rfl

def RequestFits (s : System) : Prop := ∀ request, s.client.request = some request → request.Fits

theorem RequestFits.step (fits : s.RequestFits) (h : s.step P e = some s') : s'.RequestFits := by
  intro request eq
  rcases step_request h with same | next
  · exact fits request (same ▸ eq)
  · obtain rfl := Option.some.inj (next.symm.trans eq)
    exact nextRequest_fits

theorem requestFits_init (files : Nat → Option Text) (env : Env) :
    (System.init P files env).RequestFits := fun _ eq => by cases eq

theorem RequestFits.run {ok : System → Event → Prop} (fits : s.RequestFits)
    (run : Runs (System.step P) ok s s') : s'.RequestFits :=
  run.keeps (fun _ _ _ _ step fits => fits.step step) fits

end System
end EmmaNode
