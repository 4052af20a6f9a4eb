import EmmaNode.CoapWire

/-! The parser of CoAP messages as a function of the options alone. It joins the parts of a
path or a query in the buffer it still reads from; what it writes stays in front of the next
option and behind the strings it has already handed out. -/

namespace EmmaNode

def joinOption (joined part : Text) (separator : UInt8) : Text :=
  if joined = [] then part else joined ++ separator :: part

namespace CoapPacket

def takeOption (p : CoapPacket Text) (number : Nat) (value : Text) :
    Except CoapStatus (CoapPacket Text) :=
  match CoapOption.ofNumber number with
  | none => if number % 2 = 1 then .error .badOption else .ok p
  | some o =>
    let p := p.setOption o
    match o with
    | .contentType => .ok { p with contentType := parseIntOption value }
    | .maxAge => .ok { p with maxAge := parseIntOption value }
    | .proxyUri => .error .proxyingNotSupported
    | .etag => .ok { p with etag := value.take coapTokenLen }
    | .uriHost => .ok { p with uriHost := value }
    | .locationPath => .ok { p with locationPath := joinOption p.locationPath value slash }
    | .uriPort => .ok { p with uriPort := (parseIntOption value).toUInt16 }
    | .locationQuery =>
      .ok { p with locationQuery := joinOption p.locationQuery value '&'.toUInt8 }
    | .uriPath => .ok { p with uriPath := joinOption p.uriPath value slash }
    | .observe => .ok { p with observe := (parseIntOption value).toUInt16 }
    | .token => .ok { p with token := value.take coapTokenLen }
    | .accept =>
      let accept := if p.accept.length < coapMaxAcceptNum then
          p.accept ++ [(parseIntOption value).toUInt16] else p.accept
      .ok { p with accept }
    | .ifMatch => .ok { p with ifMatch := value.take coapTokenLen }
    | .fencePost => .ok p
    | .uriQuery => .ok { p with uriQuery := joinOption p.uriQuery value '&'.toUInt8 }
    | .block2 => .ok { p with block2 := .ofValue (parseIntOption value) }
    | .block1 => .ok { p with block1 := .ofValue (parseIntOption value) }
    | .ifNoneMatch => .ok { p with ifNoneMatch := true }

def takeOptions : List (Nat × Text) → CoapPacket Text → Except CoapStatus (CoapPacket Text)
  | [], p => .ok p
  | (number, value) :: more, p => (p.takeOption number value).bind (takeOptions more)

def string (p : CoapPacket Slice) : CoapOption → Slice
  | .proxyUri => p.proxyUri
  | .uriHost => p.uriHost
  | .locationPath => p.locationPath
  | .locationQuery => p.locationQuery
  | .uriPath => p.uriPath
  | .uriQuery => p.uriQuery
  | _ => .null

def setString {σ : Type} (p : CoapPacket σ) (o : CoapOption) (s : σ) : CoapPacket σ :=
  match o with
  | .proxyUri => { p with proxyUri := s }
  | .uriHost => { p with uriHost := s }
  | .locationPath => { p with locationPath := s }
  | .locationQuery => { p with locationQuery := s }
  | .uriPath => { p with uriPath := s }
  | .uriQuery => { p with uriQuery := s }
  | _ => p

def IsString (o : CoapOption) : Prop :=
  o = .proxyUri ∨ o = .uriHost ∨ o = .locationPath ∨ o = .locationQuery ∨ o = .uriPath ∨
    o = .uriQuery

structure Laid (p : CoapPacket Slice) (number stop : Nat) : Prop where
  inside : ∀ o, 0 < (p.string o).length → (p.string o).stop ≤ stop ∧ o.number ≤ number
  ordered : ∀ o o', 0 < (p.string o).length → 0 < (p.string o').length → o.number ≤ o'.number →
    (p.string o).stop ≤ (p.string o').stop
  payload : p.payload.length = 0

variable {p : CoapPacket Slice} {o o' : CoapOption} {s : Slice}

theorem string_own (h : IsString o) : ((p.setOption o).setString o s).string o = s := by
  rcases h with rfl | rfl | rfl | rfl | rfl | rfl <;> rfl

theorem string_other (h : IsString o) (other : o' ≠ o) :
    ((p.setOption o).setString o s).string o' = p.string o' := by
  rcases h with rfl | rfl | rfl | rfl | rfl | rfl <;> cases o' <;>
    first | rfl | exact absurd rfl other

theorem map_setString {f g : Slice → Text} (h : IsString o)
    (others : ∀ o' ≠ o, g (p.string o') = f (p.string o')) (payload : g p.payload = f p.payload) :
    ((p.setOption o).setString o s).map g = ((p.map f).setOption o).setString o (g s) := by
  have h₁ := others .proxyUri
  have h₂ := others .uriHost
  have h₃ := others .locationPath
  have h₄ := others .locationQuery
  have h₅ := others .uriPath
  have h₆ := others .uriQuery
  rcases h with rfl | rfl | rfl | rfl | rfl | rfl <;>
    simp_all [map, setOption, setString, string]

end CoapPacket

section
variable {m : Memory} {dst option : Slice} {separator : UInt8}

@[simp] theorem Slice.text_empty (s : Slice) (h : s.length = 0) : s.text m = [] := by
  rw [Slice.text, h]
  rfl

theorem Slice.text_congr {m' : Memory} {s : Slice}
    (same : 0 < s.length → ∀ i < s.stop, m' i = m i) : s.text m' = s.text m := by
  rcases Nat.eq_zero_or_pos s.length with empty | some'
  · rw [s.text_empty empty, s.text_empty empty]
  · exact Memory.read_congr fun i _ hi => same some' i hi

theorem Slice.text_nil {s : Slice} : s.text m = [] ↔ s.length = 0 := by
  rw [← List.length_eq_zero_iff, Slice.text, Memory.length_read]

/-- What `coap_merge_multi_option` leaves as it was, and what it makes -/
theorem merge_spec (free : 0 < dst.length → dst.stop < option.start) :
    (∀ i, i < dst.stop → (mergeMultiOption m dst option separator).1 i = m i) ∧
    (∀ i, option.stop ≤ i → (mergeMultiOption m dst option separator).1 i = m i) ∧
    (dst.length = 0 → (mergeMultiOption m dst option separator).1 = m) ∧
    (mergeMultiOption m dst option separator).2.stop ≤ option.stop ∧
    (0 < dst.length → 0 < (mergeMultiOption m dst option separator).2.length ∧
      dst.stop ≤ (mergeMultiOption m dst option separator).2.stop) ∧
    (mergeMultiOption m dst option separator).2.text (mergeMultiOption m dst option separator).1 =
      joinOption (dst.text m) (option.text m) separator := by
  rw [mergeMultiOption]
  split
  · rename_i some'
    have room := free some'
    simp only [Slice.stop] at room ⊢
    refine ⟨fun i hi => ?_, fun i hi => ?_, by omega, by omega,
      fun _ => ⟨by omega, by omega⟩, ?_⟩
    · simp only [Memory.move]
      rw [if_neg (by omega), Function.update_of_ne (by omega)]
    · simp only [Memory.move]
      rw [if_neg (by omega), Function.update_of_ne (by omega)]
    · rw [joinOption, if_neg (fun h => by rw [Slice.text_nil] at h; omega)]
      simp only [Slice.text]
      rw [show dst.length + 1 + option.length = dst.length + (1 + option.length) by omega,
        Memory.read_append, Memory.read_append]
      congr 1
      · refine Memory.read_congr fun i _ hi => ?_
        simp only [Memory.move]
        rw [if_neg (by omega), Function.update_of_ne (by omega)]
      · have mark : ∀ m' : Memory, m'.read (dst.start + dst.length) 1 =
            [m' (dst.start + dst.length)] := fun _ => rfl
        rw [mark, List.singleton_append]
        congr 1
        · simp only [Memory.move]
          rw [if_neg (by omega), Function.update_self]
        · refine List.map_congr_left fun i hi => ?_
          have := List.mem_range.mp hi
          simp only [Memory.move]
          rw [if_pos (by omega), Function.update_of_ne (by omega)]
          congr 1
          omega
  · rename_i none'
    refine ⟨fun _ _ => rfl, fun _ _ => rfl, fun _ => rfl, Nat.le_refl _, by omega, ?_⟩
    rw [joinOption, if_pos (dst.text_empty (by omega))]

end

inductive Except.Both {ε α β : Type} (R : α → β → Prop) : Except ε α → Except ε β → Prop
  | error (e : ε) : Both R (.error e) (.error e)
  | ok {a : α} {b : β} : R a b → Both R (.ok a) (.ok b)

theorem Except.Both.mono {ε α β : Type} {R S : α → β → Prop} {x : Except ε α} {y : Except ε β}
    (h : Both R x y) (imp : ∀ a b, R a b → S a b) : Both S x y := by
  cases h with
  | error e => exact .error e
  | ok h => exact .ok (imp _ _ h)

theorem Except.Both.of_map {ε α β γ : Type} {R : α → γ → Prop} {f : β → γ} {x : Except ε α}
    {y : Except ε β} (h : Both R x (y.map f)) : Both (fun a b => R a (f b)) x y := by
  cases y with
  | error e =>
    cases h
    exact .error e
  | ok b =>
    cases h with
    | ok h => exact .ok h

namespace OptionReader

/-- The reader stands for the packet `p`: its strings read as those of `p`, and the buffer is
still `m` from the next option on. -/
structure Views (m : Memory) (r : OptionReader) (p : CoapPacket Text) : Prop where
  rest : ∀ i, r.currentOption ≤ i → r.memory i = m i
  view : r.packet.map (·.text r.memory) = p
  laid : r.packet.Laid r.currentNumber r.currentOption

variable {m : Memory} {r : OptionReader} {p : CoapPacket Text}

theorem Views.plain (v : r.Views m p) {packet : CoapPacket Slice} {number stop : Nat}
    (string : ∀ o, packet.string o = r.packet.string o)
    (payload : packet.payload = r.packet.payload) (later : r.currentNumber ≤ number)
    (behind : r.currentOption ≤ stop) :
    Views m ⟨r.memory, packet, stop, number⟩ (packet.map (·.text r.memory)) where
  rest i hi := v.rest i (Nat.le_trans behind hi)
  view := rfl
  laid :=
    { inside := fun o ho => by
        rw [string] at ho ⊢
        have := v.laid.inside o ho
        simp only
        omega
      ordered := fun o o' ho ho' le => by
        rw [string, string] at *
        exact v.laid.ordered o o' ho ho' le
      payload := payload ▸ v.laid.payload }

theorem Views.replaced (v : r.Views m p) {o : CoapOption} (string : CoapPacket.IsString o)
    {memory : Memory} {s : Slice} {stop : Nat} {text : Text} (later : r.currentNumber ≤ o.number)
    (behind : r.currentOption ≤ stop) (inside : s.stop ≤ stop)
    (rest : ∀ i, stop ≤ i → memory i = r.memory i)
    (others : ∀ o' ≠ o, 0 < (r.packet.string o').length →
      (∀ i < (r.packet.string o').stop, memory i = r.memory i) ∧
        (0 < s.length → (r.packet.string o').stop ≤ s.stop))
    (own : s.text memory = text) :
    Views m ⟨memory, (r.packet.setOption o).setString o s, stop, o.number⟩
      ((p.setOption o).setString o text) where
  rest i hi := (rest i hi).trans (v.rest i (Nat.le_trans behind hi))
  view := by
    obtain rfl := v.view
    obtain rfl := own
    refine CoapPacket.map_setString string (fun o' other => ?_) ?_
    · exact Slice.text_congr fun some' => (others o' other some').1
    · rw [Slice.text_empty _ v.laid.payload, Slice.text_empty _ v.laid.payload]
  laid :=
    { inside := fun o' some' => by
        by_cases other : o' = o
        · subst other
          rw [CoapPacket.string_own string]
          exact ⟨inside, Nat.le_refl _⟩
        · rw [CoapPacket.string_other string other] at some' ⊢
          have := v.laid.inside o' some'
          simp only
          omega
      ordered := fun o₁ o₂ some₁ some₂ le => by
        by_cases first : o₁ = o <;> by_cases second : o₂ = o
        · rw [first, second]
        · subst first
          rw [CoapPacket.string_other string second] at some₂
          have := v.laid.inside o₂ some₂
          exact absurd (CoapOption.number_inj (by omega)) second
        · subst second
          rw [CoapPacket.string_other string first, CoapPacket.string_own string] at *
          exact (others o₁ first some₁).2 some₂
        · rw [CoapPacket.string_other string first] at some₁ ⊢
          rw [CoapPacket.string_other string second] at some₂ ⊢
          exact v.laid.ordered o₁ o₂ some₁ some₂ le
      payload := by
        have := v.laid.payload
        rcases string with rfl | rfl | rfl | rfl | rfl | rfl <;> exact this }

theorem Views.merged (v : r.Views m p) {o : CoapOption} (string : CoapPacket.IsString o)
    {option : Slice} {separator : UInt8} {text : Text} (later : r.currentNumber ≤ o.number)
    (behind : r.currentOption < option.start)
    (joined : joinOption ((r.packet.string o).text r.memory) (option.text r.memory) separator =
      text) :
    Views m ⟨(mergeMultiOption r.memory (r.packet.string o) option separator).1,
      (r.packet.setOption o).setString o
        (mergeMultiOption r.memory (r.packet.string o) option separator).2,
      option.stop, o.number⟩ ((p.setOption o).setString o text) := by
  have free : 0 < (r.packet.string o).length → (r.packet.string o).stop < option.start := by
    intro some'
    have := (v.laid.inside o some').1
    omega
  obtain ⟨front, rest, same, stop, grown, text'⟩ :=
    @merge_spec r.memory _ _ separator free
  have ends : option.start ≤ option.stop := Nat.le_add_right ..
  refine v.replaced string later (by omega) stop rest (fun o' other some' => ?_)
    (text'.trans joined)
  have inside := v.laid.inside o' some'
  rcases Nat.eq_zero_or_pos (r.packet.string o).length with empty | mine
  · refine ⟨fun i _ => by rw [same empty], fun _ => ?_⟩
    have before : (r.packet.string o').stop ≤ option.stop := by omega
    rw [mergeMultiOption, if_neg (by omega)]
    exact before
  · -- the other strings end before what is written
    have before := v.laid.ordered o' o some' mine (Nat.le_trans inside.2 later)
    exact ⟨fun i hi => front i (by omega), fun _ => Nat.le_trans before (grown mine).2⟩

theorem optionAt_rest {i : Nat} (rest : ∀ j, i ≤ j → r.memory j = m j) :
    r.memory.optionAt i = m.optionAt i := by
  rw [Memory.optionAt, Memory.optionAt, rest i (Nat.le_refl i), rest (i + 1) (Nat.le_succ i)]

theorem Views.step (v : r.Views m p) :
    Except.Both (Views m) r.step
      (p.takeOption (r.currentNumber + (m r.currentOption >>> 4).toNat)
        ((m.optionAt r.currentOption).text m)) := by
  obtain rfl := v.view
  have first : r.memory r.currentOption = m r.currentOption := v.rest _ (Nat.le_refl _)
  have place := optionAt_rest v.rest
  have start := m.optionAt_lt r.currentOption
  have value : (m.optionAt r.currentOption).text r.memory =
      (m.optionAt r.currentOption).text m :=
    Memory.read_congr fun i hi _ => v.rest i (by omega)
  have behind : r.currentOption ≤ (m.optionAt r.currentOption).stop := by
    rw [Slice.stop]
    omega
  have later : r.currentNumber ≤ r.currentNumber + (m r.currentOption >>> 4).toNat :=
    Nat.le_add_right ..
  rw [OptionReader.step, take, first, place, CoapPacket.takeOption, value]
  generalize hn : r.currentNumber + (m r.currentOption >>> 4).toNat = number at later
  cases named : CoapOption.ofNumber number with
  | none =>
    simp only
    split
    · exact .error _
    · exact .ok (v.plain (fun _ => rfl) rfl later behind)
  | some o =>
    obtain rfl : o.number = number := by simpa using List.find?_some named
    cases o with
    | proxyUri => exact .error _
    | uriHost =>
      refine .ok (v.replaced (o := .uriHost) (by simp [CoapPacket.IsString]) later behind
        (Nat.le_refl _) (fun _ _ => rfl) (fun o' _ some' => ⟨fun _ _ => rfl, fun _ => ?_⟩) value)
      exact Nat.le_trans (v.laid.inside o' some').1 behind
    | locationPath =>
      exact .ok (v.merged (o := .locationPath) (by simp [CoapPacket.IsString]) later start
        (by rw [value]; rfl))
    | locationQuery =>
      exact .ok (v.merged (o := .locationQuery) (by simp [CoapPacket.IsString]) later start
        (by rw [value]; rfl))
    | uriPath =>
      exact .ok (v.merged (o := .uriPath) (by simp [CoapPacket.IsString]) later start
        (by rw [value]; rfl))
    | uriQuery =>
      exact .ok (v.merged (o := .uriQuery) (by simp [CoapPacket.IsString]) later start
        (by rw [value]; rfl))
    | _ => exact .ok (v.plain (fun o => by cases o <;> rfl) rfl later behind)

theorem step_place {r' : OptionReader} (h : r.step = .ok r') :
    r'.currentOption = (r.memory.optionAt r.currentOption).stop ∧
      r'.currentNumber = r.currentNumber + (r.memory r.currentOption >>> 4).toNat := by
  rw [step] at h
  cases taken : r.take (r.currentNumber + (r.memory r.currentOption >>> 4).toNat)
      (r.memory.optionAt r.currentOption) with
  | error e =>
    rw [taken] at h
    cases h
  | ok made =>
    rw [taken] at h
    cases h
    exact ⟨rfl, rfl⟩

theorem Views.steps (v : r.Views m p) (count : Nat) :
    Except.Both (fun r' q => Views m r' q ∧
        r'.currentOption = (m.options count r.currentNumber r.currentOption).2)
      (r.steps count) (p.takeOptions (m.options count r.currentNumber r.currentOption).1) := by
  induction count generalizing r p with
  | zero => exact .ok ⟨v, rfl⟩
  | succ count ih =>
    have first := v.step
    rw [OptionReader.steps, Memory.options, CoapPacket.takeOptions]
    generalize hs : r.step = stepped at first
    generalize ht : p.takeOption _ _ = taken at first
    cases first with
    | error e => exact .error e
    | @ok r' q v' =>
      obtain ⟨place, number⟩ := step_place hs
      rw [optionAt_rest v.rest] at place
      rw [v.rest _ (Nat.le_refl _)] at number
      have more := ih v'
      rw [place, number] at more
      exact more

end OptionReader

namespace Memory

def optionsOf (m : Memory) : List (Nat × Text) × Nat :=
  m.options (0x0F &&& m 0).toNat 0 coapHeaderLen

def payloadAt (dataLen : UInt16) (stop : Nat) : Slice :=
  ⟨stop, min restMaxChunkSize (dataLen - UInt16.ofNat stop).toNat⟩

def message (m : Memory) (dataLen : UInt16) : Except CoapStatus (CoapPacket Text) :=
  if (0xC0 &&& m 0) >>> 6 ≠ 1 then .error .badRequest
  else
    ((m.header.map (·.text m)).takeOptions m.optionsOf.1).map fun p =>
      { p with payload := (payloadAt dataLen m.optionsOf.2).text m }

theorem parseMessage_refines (m : Memory) (dataLen : UInt16) :
    Except.Both (fun made q => made.2.map (·.text made.1) = q ∧
        made.2.payload = payloadAt dataLen m.optionsOf.2 ∧
        ∀ i, made.2.payload.start ≤ i → made.1 i = if i = made.2.payload.stop then 0 else m i)
      (m.parseMessage dataLen) (m.message dataLen) := by
  rw [parseMessage, message]
  split
  · exact .error _
  have start : OptionReader.Views m ⟨m, m.header, coapHeaderLen, 0⟩ (m.header.map (·.text m)) :=
    { rest := fun _ _ => rfl
      view := rfl
      laid :=
        { inside := fun o some' => by cases o <;> cases some'
          ordered := fun o _ some' => by cases o <;> cases some'
          payload := rfl } }
  have run : Except.Both (fun r' q => OptionReader.Views m r' q ∧ r'.currentOption = m.optionsOf.2)
      (OptionReader.steps (0x0F &&& m 0).toNat ⟨m, m.header, coapHeaderLen, 0⟩)
      ((m.header.map (·.text m)).takeOptions m.optionsOf.1) := start.steps _
  generalize OptionReader.steps _ _ = read at run
  generalize CoapPacket.takeOptions _ _ = taken at run
  cases run with
  | error e => exact .error e
  | @ok r q h =>
    obtain ⟨v, stop⟩ := h
    have payload : (finish r dataLen).2.payload = payloadAt dataLen m.optionsOf.2 := by
      rw [← stop]
      rfl
    have memory : (finish r dataLen).1 =
        Function.update r.memory (finish r dataLen).2.payload.stop 0 := rfl
    refine .ok ⟨?_, payload, fun i hi => ?_⟩
    · obtain rfl := v.view
      have ends : ∀ o, (r.packet.string o).text (finish r dataLen).1 =
          (r.packet.string o).text r.memory := by
        intro o
        refine Slice.text_congr fun some' i hi => Function.update_of_ne ?_ _ _
        have := (v.laid.inside o some').1
        omega
      have text : (finish r dataLen).2.payload.text (finish r dataLen).1 =
          (payloadAt dataLen m.optionsOf.2).text m := by
        rw [← payload]
        refine read_congr fun i hi hi' => ?_
        have other : i ≠ (finish r dataLen).2.payload.stop := Nat.ne_of_lt hi'
        rw [memory, Function.update_of_ne other]
        exact v.rest i hi
      have h₁ := ends .proxyUri
      have h₂ := ends .uriHost
      have h₃ := ends .locationPath
      have h₄ := ends .locationQuery
      have h₅ := ends .uriPath
      have h₆ := ends .uriQuery
      simp only [CoapPacket.string] at h₁ h₂ h₃ h₄ h₅ h₆
      rw [← text]
      simp only [CoapPacket.map, finish] at h₁ h₂ h₃ h₄ h₅ h₆ ⊢
      rw [h₁, h₂, h₃, h₄, h₅, h₆]
    · rw [memory, Function.update_apply]
      split
      · rfl
      · exact v.rest i hi

/-- Whatever the datagram, the parser does what the one list of options says that its bytes are
the code of, and leaves what is behind the options as it was, but for a zero. -/
theorem parseMessage_code (m : Memory) (dataLen : UInt16) :
    ∃ (options : List (Nat × Text)) (stop : Nat), options.length = (0x0F &&& m 0).toNat ∧
      optionCode.Encodes 0 options ∧
      m.read coapHeaderLen (stop - coapHeaderLen) = optionCode.encode 0 options ∧
      Except.Both (fun made q =>
          made.2.map (·.text made.1) = { q with payload := (payloadAt dataLen stop).text m } ∧
          ∀ i, stop ≤ i → made.1 i = if i = (payloadAt dataLen stop).stop then 0 else m i)
        (m.parseMessage dataLen)
        (if (0xC0 &&& m 0) >>> 6 ≠ 1 then .error .badRequest
          else (m.header.map (·.text m)).takeOptions options) := by
  obtain ⟨encodes, bytes⟩ := m.options_code (0x0F &&& m 0).toNat 0 coapHeaderLen
  refine ⟨m.optionsOf.1, m.optionsOf.2, m.length_options _ _ _, encodes, bytes, ?_⟩
  have refines := m.parseMessage_refines dataLen
  rw [message] at refines
  split
  · rw [if_pos ‹_›] at refines
    generalize m.parseMessage dataLen = parsed at refines
    cases refines
    exact .error _
  · rw [if_neg ‹_›] at refines
    refine refines.of_map.mono ?_
    rintro made q ⟨text, payload, rest⟩
    rw [payload] at rest
    exact ⟨text, rest⟩

/-- The parser hands on bytes from behind the datagram exactly when its options end there: then
the length of the payload is a number below zero in sixteen bits, and a full chunk is taken. -/
theorem parseMessage_within {m : Memory} {dataLen : UInt16} {made : Memory × CoapPacket Slice}
    (h : m.parseMessage dataLen = .ok made) :
    made.2.payload.start = m.optionsOf.2 ∧
      (m.optionsOf.2 ≤ dataLen.toNat →
        made.2.payload.length = min restMaxChunkSize (dataLen.toNat - m.optionsOf.2)) ∧
      (dataLen.toNat < m.optionsOf.2 → made.2.payload.length = restMaxChunkSize) := by
  have refines := m.parseMessage_refines dataLen
  rw [h] at refines
  generalize m.message dataLen = q at refines
  cases refines with
  | ok refines =>
    have payload : made.2.payload = payloadAt dataLen m.optionsOf.2 := refines.2.1
    have most := m.options_stop_le (0x0F &&& m 0).toNat 0 coapHeaderLen
    have count := (headerByte_nat (m 0).toNat (m 0).toNat_lt).2.2
    rw [UInt8.ofNat_toNat] at count
    rw [← optionsOf] at most
    have header : coapHeaderLen = 4 := rfl
    have chunk : restMaxChunkSize = 64 := rfl
    have small := dataLen.toNat_lt
    have length : made.2.payload.length = min restMaxChunkSize
        ((2 ^ 16 - m.optionsOf.2 % 2 ^ 16 + dataLen.toNat) % 2 ^ 16) := by
      rw [payload, payloadAt, UInt16.toNat_sub, UInt16.toNat_ofNat']
    refine ⟨by rw [payload]; rfl, fun inside => ?_, fun outside => ?_⟩ <;> rw [length] <;> omega

/-- A datagram of five bytes whose one option is to have seven -/
theorem parseMessage_within_short :
    ∃ made, parseMessage (fun i => [0x41, 1, 0, 7, 0x17].getD i 0) 5 = .ok made ∧
      made.2.payload.length = restMaxChunkSize :=
  ⟨_, rfl, (@parseMessage_within (fun i => [0x41, 1, 0, 7, 0x17].getD i 0) 5 _ rfl).2.2
    (by decide +kernel)⟩

end Memory
end EmmaNode
