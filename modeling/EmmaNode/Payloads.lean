import EmmaNode.AgentContent
import EmmaNode.JsonObjects

/-! The list of payloads of an agent as the client reads it: where a payload is found, and
which of its bytes make up a block. -/

namespace EmmaNode

def isGap (c : UInt8) : Bool := c ∈ chars [' ', ',', '\t', '\n', '\r']

inductive Listed : Text → List Text → Prop
  | nil : Listed [] []
  | cons {gap o list : Text} {objects : List Text} : (∀ c ∈ gap, isGap c) → Scanned o →
      Listed list objects → Listed (gap ++ (o ++ list)) (o :: objects)

/-- From `x` on there are these objects, up to a bracket in front of `stop`. -/
def Holds (text : Text) (stop x : Nat) (objects : List Text) : Prop :=
  ∃ list gap rest, text.drop x = list ++ (gap ++ ']'.toUInt8 :: rest) ∧ Listed list objects ∧
    (∀ c ∈ gap, isGap c) ∧ x + (list.length + gap.length) < stop

namespace Holds
variable {text o : Text} {objects : List Text} {stop x : Nat}

theorem uncons (h : Holds text stop x (o :: objects)) : ∃ gap t, text.drop x = gap ++ (o ++ t) ∧
    (∀ c ∈ gap, isGap c) ∧ Scanned o ∧ x + gap.length < stop ∧
    Holds text stop (x + gap.length + o.length) objects := by
  obtain ⟨list, gap, rest, here, listed, gaps, inside⟩ := h
  cases listed with
  | @cons front _ list _ fronts scanned later =>
    rw [List.append_assoc, List.append_assoc] at here
    rw [List.length_append, List.length_append] at inside
    have behind : text.drop (x + front.length + o.length) = list ++ (gap ++ ']'.toUInt8 :: rest) := by
      rw [← List.drop_drop, ← List.drop_drop, here, List.drop_left, List.drop_left]
    exact ⟨front, _, here, fronts, scanned, by omega, list, gap, rest, behind, later, gaps, by omega⟩

theorem of_nil (h : Holds text stop x []) : ∃ gap rest, text.drop x = gap ++ ']'.toUInt8 :: rest ∧
    (∀ c ∈ gap, isGap c) ∧ x + gap.length < stop ∧ Holds text stop (x + gap.length) [] := by
  obtain ⟨list, gap, rest, here, listed, gaps, inside⟩ := h
  cases listed
  have behind : text.drop (x + gap.length) = ']'.toUInt8 :: rest := by
    rw [← List.drop_drop, here, List.nil_append, List.drop_left]
  have inside : x + gap.length < stop := by
    simpa using inside
  exact ⟨gap, rest, here, gaps, inside, [], [], rest, behind, .nil, by simp, by simpa using inside⟩

end Holds

namespace System
variable {P : Platform} {s : System}

theorem takeObject_some {t : Text} {p : JsonParser} {k : Nat} (h : p.objectEnd t = some k) (n : Nat)
    (state : JsonState) : ∃ p', takeObject t n p state = (n + k, p', .objEnd, true) := by
  induction t generalizing p n k state with
  | nil => cases h
  | cons c t ih =>
    rw [JsonParser.objectEnd] at h
    rw [takeObject]
    generalize p.parse c 0 = parsed at h
    obtain ⟨p', st⟩ := parsed
    by_cases done : st = .objEnd
    · subst done
      cases h
      exact ⟨p', rfl⟩
    · simp only [if_neg done] at h
      obtain ⟨m, hm, rfl⟩ := Option.map_eq_some_iff.mp h
      obtain ⟨p'', run⟩ := ih hm (n + 1) st
      refine ⟨p'', ?_⟩
      simp only [run]
      rw [Nat.add_assoc, Nat.add_comm 1 m]

theorem takeObject_none {t : Text} {p : JsonParser} (h : p.objectEnd t = none) (n : Nat)
    (state : JsonState) :
    ∃ state', takeObject t n p state = (n + t.length, p.after t, state', false) := by
  induction t generalizing p n state with
  | nil => exact ⟨state, rfl⟩
  | cons c t ih =>
    rw [JsonParser.objectEnd] at h
    rw [takeObject, JsonParser.after, List.foldl_cons]
    generalize p.parse c 0 = parsed at h
    obtain ⟨p', st⟩ := parsed
    by_cases done : st = .objEnd
    · subst done
      cases h
    · simp only [if_neg done, Option.map_eq_none_iff] at h
      obtain ⟨state', run⟩ := ih h (n + 1) st
      refine ⟨state', ?_⟩
      simp only [run, JsonParser.after, List.length_cons]
      rw [Nat.add_assoc, Nat.add_comm 1 t.length]

def Found (state : JsonState) : Prop := state = .strStart ∨ state = .objStart ∨ state = .error

theorem parse_gap {c : UInt8} (h : isGap c) :
    ∃ state, JsonParser.clean.parse c 0 = (.clean, state) ∧ ¬Found state := by
  have cases' : c = ' '.toUInt8 ∨ c = ','.toUInt8 ∨ c = '\t'.toUInt8 ∨ c = '\n'.toUInt8 ∨
      c = '\r'.toUInt8 := by simpa [isGap, chars] using h
  unfold Found
  rcases cases' with rfl | rfl | rfl | rfl | rfl
  · exact ⟨.separator, by decide⟩
  · exact ⟨.separator, by decide⟩
  · exact ⟨.content, by decide⟩
  · exact ⟨.content, by decide⟩
  · exact ⟨.content, by decide⟩

theorem skipToContent_gap {gap : Text} (h : ∀ c ∈ gap, isGap c) (n : Nat) (state : JsonState) :
    ∃ state', skipToContent gap n .clean state = (n + gap.length, .clean, state') ∧
      (gap ≠ [] → ¬Found state') := by
  induction gap generalizing n state with
  | nil => exact ⟨state, rfl, fun filled => absurd rfl filled⟩
  | cons c gap ih =>
    obtain ⟨st, parsed, other⟩ := parse_gap (h c List.mem_cons_self)
    obtain ⟨state', run, later⟩ := ih (fun b hb => h b (List.mem_cons_of_mem _ hb)) (n + 1) st
    refine ⟨state', ?_, fun _ => ?_⟩
    · rw [skipToContent, parsed]
      unfold Found at other
      simp only [if_neg other, run, List.length_cons]
      rw [Nat.add_assoc, Nat.add_comm 1 gap.length]
    · cases gap with
      | nil =>
        cases run
        exact other
      | cons b gap => exact later (by simp)

theorem skipToContent_found {gap rest : Text} {c : UInt8} {p : JsonParser} {st : JsonState}
    (h : ∀ c ∈ gap, isGap c) (parsed : JsonParser.clean.parse c 0 = (p, st)) (found : Found st)
    (n : Nat)
    (state : JsonState) :
    skipToContent (gap ++ c :: rest) n .clean state = (n + gap.length, p, st) := by
  induction gap generalizing n state with
  | nil =>
    rw [List.nil_append, skipToContent, parsed]
    unfold Found at found
    simp only [if_pos found]
    rfl
  | cons b gap ih =>
    obtain ⟨st', parsed', other⟩ := parse_gap (h b List.mem_cons_self)
    rw [List.cons_append, skipToContent, parsed']
    unfold Found at other
    simp only [if_neg other]
    rw [ih (fun d hd => h d (List.mem_cons_of_mem _ hd)), List.length_cons, Nat.add_assoc,
      Nat.add_comm 1]

/-- The agent that runs has this text. -/
def HasText (s : System) (text : Text) : Prop :=
  emmaGetRoot s.client.resource = some .agent ∧ s.shared.store.slotOf s.client.resource ≠ none ∧
    s.shared.content s.client.resource = text

instance (s : System) (text : Text) : Decidable (s.HasText text) := by unfold HasText; infer_instance

theorem HasText.agentBytes {text : Text} (reads : s.HasText text) (size index : Nat) :
    s.agentBytes P size index = (text.drop index).take size := by
  obtain ⟨root, there, rfl⟩ := reads
  obtain ⟨slot, hslot⟩ := Option.ne_none_iff_exists'.mp there
  exact (State.emmaResourceRead_agent (s := s.shared) ⟨root, hslot⟩ size index).2.1

/-- A text whose indices are those of `emma_index_t` and the agents' sizes -/
structure Indexed (P : Platform) (text : Text) : Prop where
  short : text.length < 65536
  fits : ∀ n ≤ text.length, P.int (n : Nat) = n

theorem seekContent_found {text gap rest : Text} {c : UInt8} {p : JsonParser} {st : JsonState}
    {stop x : Nat} (fuel : Nat) (reads : s.HasText text) (indexed : Indexed P text)
    (here : text.drop x = gap ++ c :: rest) (gaps : ∀ c ∈ gap, isGap c)
    (parsed : JsonParser.clean.parse c 0 = (p, st)) (found : Found st)
    (stops : x + gap.length < stop) (index : s.client.postStartIndex = x)
    (stopIndex : s.client.postStopIndex = stop) (clean : s.client.postJsonParser = .clean)
    (enough : gap.length < fuel * emmaClientBufferSize) :
    ∃ nb pre, s.seekContent P fuel = s.setClient fun c => { c with
      postJsonParser := p, postJsonState := st, postStartIndex := (x + gap.length : Nat)
      postNbBytes := nb, preprocessor := pre } := by
  induction fuel generalizing s gap x with
  | zero => omega
  | succ fuel ih =>
    have inside : x + gap.length < text.length := by
      have := congrArg List.length here
      simp only [List.length_drop, List.length_append, List.length_cons] at this
      omega
    have bytes : s.agentBytes P emmaClientBufferSize s.client.postStartIndex =
        (gap ++ c :: rest).take emmaClientBufferSize := by
      rw [index, reads.agentBytes, here]
    rw [seekContent]
    simp only [bytes, clean]
    by_cases near : gap.length < emmaClientBufferSize
    · obtain ⟨m, hm⟩ : ∃ m, emmaClientBufferSize = gap.length + (m + 1) :=
        ⟨emmaClientBufferSize - gap.length - 1, by omega⟩
      have taken : (gap ++ c :: rest).take emmaClientBufferSize = gap ++ c :: rest.take m := by
        rw [hm, List.take_length_add_append, List.take_succ_cons]
      have sum : P.int (s.client.postStartIndex + ((0 + gap.length : Nat) : Int)) =
          (x + gap.length : Nat) := by
        rw [index, Nat.zero_add]
        exact_mod_cast indexed.fits (x + gap.length) (by omega)
      simp only [taken, skipToContent_found gaps parsed found, sum]
      have stopped : ¬(st ≠ .strStart ∧ st ≠ .objStart ∧ st ≠ .error) := by
        rintro ⟨a, b, c⟩
        rcases found with h | h | h
        · exact a h
        · exact b h
        · exact c h
      rw [if_neg (fun h => stopped h.2.2)]
      exact ⟨_, _, rfl⟩
    · -- a block of nothing but gap
      have far : emmaClientBufferSize ≤ gap.length := Nat.le_of_not_lt near
      have positive : 0 < emmaClientBufferSize := by decide
      have taken : (gap ++ c :: rest).take emmaClientBufferSize = gap.take emmaClientBufferSize :=
        List.take_append_of_le_length far
      have size : (gap.take emmaClientBufferSize).length = emmaClientBufferSize := by
        rw [List.length_take, Nat.min_eq_left far]
      obtain ⟨st', run, other⟩ := @skipToContent_gap (gap.take emmaClientBufferSize)
        (fun b hb => gaps b (List.mem_of_mem_take hb)) 0 s.client.postJsonState
      have open' := other (fun e => by rw [e] at size; simp at size; omega)
      have sum : P.int (s.client.postStartIndex + ((0 + emmaClientBufferSize : Nat) : Int)) =
          (x + emmaClientBufferSize : Nat) := by
        rw [index, Nat.zero_add]
        exact_mod_cast indexed.fits (x + emmaClientBufferSize) (by omega)
      rw [size] at run
      simp only [taken, run, sum, size]
      have goes : True ∧ ((x + emmaClientBufferSize : Nat) : Int) < s.client.postStopIndex ∧
          st' ≠ .strStart ∧ st' ≠ .objStart ∧ st' ≠ .error := by
        refine ⟨trivial, ?_, fun e => open' (.inl e), fun e => open' (.inr (.inl e)),
          fun e => open' (.inr (.inr e))⟩
        rw [stopIndex]
        exact_mod_cast Nat.lt_of_le_of_lt (Nat.add_le_add_left far x) stops
      have next : text.drop (x + emmaClientBufferSize) =
          gap.drop emmaClientBufferSize ++ c :: rest := by
        rw [← List.drop_drop, here, List.drop_append_of_le_length far]
      have left : (gap.drop emmaClientBufferSize).length = gap.length - emmaClientBufferSize :=
        List.length_drop
      obtain ⟨nb, pre, later⟩ := @ih (s.setClient fun c => { c with
          postJsonParser := .clean, postJsonState := st'
          postStartIndex := (x + emmaClientBufferSize : Nat), postNbBytes := emmaClientBufferSize
          preprocessor := { c.preprocessor with
            output := overwrite s.client.preprocessor.output 0 (gap.take emmaClientBufferSize) } })
        (gap.drop emmaClientBufferSize) (x + emmaClientBufferSize) reads next
        (fun b hb => gaps b (List.mem_of_mem_drop hb)) (by rw [left]; omega) rfl stopIndex rfl
        (by rw [left]; rw [Nat.succ_mul] at enough; omega)
      refine ⟨nb, pre, ?_⟩
      rw [if_pos goes, later, left]
      have same : x + emmaClientBufferSize + (gap.length - emmaClientBufferSize) = x + gap.length := by
        omega
      rw [same]
      rfl

theorem targetHead_found {text gap rest : Text} {c : UInt8} {p : JsonParser} {st : JsonState}
    {stop x : Nat} (reads : s.HasText text) (indexed : Indexed P text)
    (here : text.drop x = gap ++ c :: rest) (gaps : ∀ c ∈ gap, isGap c)
    (parsed : JsonParser.clean.parse c 0 = (p, st)) (found : Found st)
    (stops : x + gap.length < stop) (index : s.client.postStartIndex = x)
    (stopIndex : s.client.postStopIndex = stop) (going : s.client.code ≠ 0 ∧ s.client.pre ≠ 0) :
    ∃ nb pre, s.targetHead P = s.setClient fun c => { c with
      pc := .block, postBlockNum := 0, postLastPacket := false
      postMode := if st = .strStart then .preEvaluated else if st = .objStart then .raw else c.postMode
      postJsonParser := .clean, postJsonState := st, postStartIndex := (x + gap.length : Nat)
      postNbBytes := nb, preprocessor := pre } := by
  have size := congrArg List.length here
  rw [List.length_drop, List.length_append, List.length_cons] at size
  have short := indexed.short
  obtain ⟨nb, pre, run⟩ := @seekContent_found P (s.setClient fun c => { c with
      postJsonParser := .clean, postJsonState := .error, postNbBytes := 0 })
    text gap rest c p st stop x maxClientBlocks reads indexed here gaps parsed found stops index
    stopIndex rfl (by simp only [maxClientBlocks, emmaClientBufferSize]; omega)
  refine ⟨nb, pre, ?_⟩
  rw [targetHead, if_pos going, run]
  rfl

end System

theorem payload_overwrite (buffer : Nat → UInt8) {bytes : Text} {n : Nat} (h : n ≤ bytes.length) :
    (List.range n).map (overwrite buffer 0 bytes) = bytes.take n := by
  refine List.ext_getElem? fun i => ?_
  rw [List.getElem?_map, List.getElem?_take]
  by_cases hi : i < n
  · have inside : i < bytes.length := by omega
    rw [List.getElem?_range hi, if_pos hi, Option.map_some, overwrite,
      if_pos ⟨Nat.zero_le _, by omega⟩, Nat.sub_zero, List.getD_eq_getElem?_getD,
      List.getElem?_eq_getElem inside]
    rfl
  · rw [if_neg hi, List.getElem?_eq_none (by simpa using hi)]
    rfl

namespace System
variable {P : Platform} {s : System}

theorem blockHead_object {text o t : Text} {y n : Nat} (reads : s.HasText text)
    (indexed : Indexed P text) (scanned : Scanned o) (here : text.drop y = o ++ t)
    (mode : s.client.postMode = .raw) (inside : n * emmaClientBufferSize < o.length)
    (index : s.client.postStartIndex = (y + n * emmaClientBufferSize : Nat))
    (parser : s.client.postJsonParser = JsonParser.clean.after (o.take (n * emmaClientBufferSize))) :
    ∃ p st out, s.blockHead P = s.setClient (fun c => { c with
        pc := .send, postJsonParser := p, postJsonState := st
        postLastPacket := c.postLastPacket || decide (o.length ≤ (n + 1) * emmaClientBufferSize)
        postNbBytes := min emmaClientBufferSize (o.length - n * emmaClientBufferSize)
        postStartIndex := (y + min ((n + 1) * emmaClientBufferSize) o.length : Nat)
        preprocessor := { c.preprocessor with output := out } }) ∧
      (List.range (min emmaClientBufferSize (o.length - n * emmaClientBufferSize))).map out =
        (o.drop (n * emmaClientBufferSize)).take emmaClientBufferSize ∧
      ((n + 1) * emmaClientBufferSize < o.length →
        p = JsonParser.clean.after (o.take ((n + 1) * emmaClientBufferSize))) := by
  have size := congrArg List.length here
  rw [List.length_drop, List.length_append] at size
  have left : (o.drop (n * emmaClientBufferSize)).length = o.length - n * emmaClientBufferSize :=
    List.length_drop
  have bytes : s.agentBytes P emmaClientBufferSize s.client.postStartIndex =
      (o.drop (n * emmaClientBufferSize) ++ t).take emmaClientBufferSize := by
    rw [index, reads.agentBytes, ← List.drop_drop, here,
      List.drop_append_of_le_length (Nat.le_of_lt inside)]
  have next : (n + 1) * emmaClientBufferSize = n * emmaClientBufferSize + emmaClientBufferSize :=
    Nat.succ_mul _ _
  have index' (k : Nat) (hk : n * emmaClientBufferSize + k ≤ o.length) :
      P.int (s.client.postStartIndex + (k : Int)) =
        (y + (n * emmaClientBufferSize + k) : Nat) := by
    rw [index]
    have := indexed.fits (y + (n * emmaClientBufferSize + k)) (by omega)
    rw [← this]
    congr 1
    push_cast
    omega
  unfold blockHead
  simp only [mode, bytes, parser]
  by_cases last : o.length ≤ (n + 1) * emmaClientBufferSize
  · -- the end of the object is among the bytes
    have whole : (o.drop (n * emmaClientBufferSize) ++ t).take emmaClientBufferSize =
        o.drop (n * emmaClientBufferSize) ++
          t.take (emmaClientBufferSize - (o.drop (n * emmaClientBufferSize)).length) := by
      rw [List.take_append, List.take_of_length_le (by omega)]
    have found := @Scanned.take_ends o scanned _ emmaClientBufferSize inside (by omega) t
    obtain ⟨p, run⟩ := takeObject_some found 0 s.client.postJsonState
    have count : min emmaClientBufferSize (o.length - n * emmaClientBufferSize) =
        o.length - n * emmaClientBufferSize := Nat.min_eq_right (by omega)
    have stop : min ((n + 1) * emmaClientBufferSize) o.length =
        n * emmaClientBufferSize + (o.length - n * emmaClientBufferSize) := by
      rw [Nat.min_eq_right last]
      omega
    simp only [run]
    refine ⟨p, .objEnd, overwrite s.client.preprocessor.output 0
      ((o.drop (n * emmaClientBufferSize) ++ t).take emmaClientBufferSize), ?_, ?_,
      fun more => by omega⟩
    · simp only [setClient, index' _ (Nat.le_of_eq (Nat.add_sub_cancel' (Nat.le_of_lt inside))),
        count, stop, decide_eq_true last, Bool.or_true, Nat.zero_add]
    · rw [count, payload_overwrite _ (by rw [whole, List.length_append, left]; omega), whole,
        ← left, List.take_left' rfl, List.take_of_length_le (by omega)]
  · have part : (o.drop (n * emmaClientBufferSize) ++ t).take emmaClientBufferSize =
        (o.drop (n * emmaClientBufferSize)).take emmaClientBufferSize :=
      List.take_append_of_le_length (by omega)
    have length : ((o.drop (n * emmaClientBufferSize)).take emmaClientBufferSize).length =
        emmaClientBufferSize := by
      rw [List.length_take, left]
      omega
    have upto : o.take (n * emmaClientBufferSize) ++
        (o.drop (n * emmaClientBufferSize)).take emmaClientBufferSize =
          o.take ((n + 1) * emmaClientBufferSize) := by
      rw [next, List.take_add]
    have none' := @Scanned.take_open o scanned (n * emmaClientBufferSize) emmaClientBufferSize
      (by omega)
    obtain ⟨st, run⟩ := takeObject_none none' 0 s.client.postJsonState
    have count : min emmaClientBufferSize (o.length - n * emmaClientBufferSize) =
        emmaClientBufferSize := Nat.min_eq_left (by omega)
    have stop : min ((n + 1) * emmaClientBufferSize) o.length =
        n * emmaClientBufferSize + emmaClientBufferSize := by
      rw [Nat.min_eq_left (by omega), next]
    rw [length, ← JsonParser.after_append, upto] at run
    simp only [part, run]
    refine ⟨_, st, overwrite s.client.preprocessor.output 0
      ((o.drop (n * emmaClientBufferSize)).take emmaClientBufferSize), ?_, ?_, fun _ => rfl⟩
    · simp only [setClient, index' emmaClientBufferSize (by omega), count, stop,
        decide_eq_false last, Nat.zero_add]
    · rw [count, payload_overwrite _ (Nat.le_of_eq length.symm),
        List.take_of_length_le (Nat.le_of_eq length)]

end System
end EmmaNode
