import EmmaNode.CoapInPlace
import EmmaNode.CoapItems
import EmmaNode.CoapValues

/-! What the other side has of a packet the setters made: the parts of a path come back joined,
a block size as a power of two, and a fence-post shows as an option. -/

namespace EmmaNode

def rejoin (c : UInt8) (s : Text) : Text := (split c s).foldl (joinOption · · c) []

@[simp] theorem rejoin_nil (c : UInt8) : rejoin c [] = [] := rfl

theorem joinOption_assoc {c : UInt8} {joined part more : Text} (some' : joined ≠ [] ∨ part ≠ []) :
    joinOption (joinOption joined part c) more c = joinOption joined (part ++ c :: more) c := by
  by_cases none : joined = []
  · have some' : part ≠ [] := some'.resolve_left fun h => h none
    simp [joinOption, none, some']
  · simp [joinOption, none]

theorem splitParts_join {c : UInt8} {fuel : Nat} {joined part s : Text}
    (enough : s.length < fuel) (some' : joined ≠ [] ∨ part ≠ []) (back : ¬[c] <:+ s)
    (inside : ¬[c, slash] <:+: s) :
    (splitParts c fuel part s).foldl (joinOption · · c) joined =
      joinOption joined (part ++ s) c := by
  induction fuel generalizing joined part s with
  | zero => exact absurd enough (Nat.not_lt_zero _)
  | succ fuel ih =>
    cases s with
    | nil =>
      rw [splitParts, List.append_nil]
      rfl
    | cons first rest =>
      rw [List.length_cons] at enough
      rw [splitParts]
      split
      · rename_i same
        subst same
        cases rest with
        | nil => exact absurd (List.suffix_refl _) back
        | cons next rest =>
          have other : next ≠ slash := by
            rintro rfl
            exact inside ⟨[], rest, rfl⟩
          have tail : rest <:+ first :: next :: rest := ⟨[first, next], rfl⟩
          rw [List.dropWhile_cons_of_neg (by simpa using other), List.foldl_cons,
            ih (by simp only [List.length_cons] at enough; omega) (.inr (by simp))
              (fun h => back (h.trans tail)) fun h => inside (h.trans tail.isInfix),
            joinOption_assoc some']
          rfl
      · have tail : rest <:+ first :: rest := ⟨[first], rfl⟩
        rw [ih (by omega) (.inr (by simp)) (fun h => back (h.trans tail))
          fun h => inside (h.trans tail.isInfix), List.append_assoc]
        rfl

theorem rejoin_clean {c : UInt8} {s : Text} (front : ¬[c] <+: s) (back : ¬[c] <:+ s)
    (inside : ¬[c, slash] <:+: s) : rejoin c s = s := by
  rw [rejoin, split]
  cases s with
  | nil => rfl
  | cons first rest =>
    have other : first ≠ c := by
      rintro rfl
      exact front ⟨rest, rfl⟩
    have tail : rest <:+ first :: rest := ⟨[first], rfl⟩
    rw [List.length_cons, splitParts, if_neg other]
    exact splitParts_join (Nat.lt_succ_self _) (.inr (by simp)) (fun h => back (h.trans tail))
      fun h => inside (h.trans tail.isInfix)

namespace CoapPacket

/-- What holds of every packet the setters make: an option that is not set has no value, and
one that is set has a value that can be sent. -/
structure Built (p : CoapPacket Text) : Prop where
  contentType : p.isOption .contentType = false → p.contentType = 0
  maxAge : p.isOption .maxAge = false → p.maxAge = 0
  proxyUri : p.isOption .proxyUri = false → p.proxyUri = []
  etag : p.isOption .etag = false → p.etag = []
  uriHost : p.isOption .uriHost = false → p.uriHost = []
  locationPath : p.isOption .locationPath = false → p.locationPath = []
  uriPort : p.isOption .uriPort = false ∧ p.uriPort = 0
  locationQuery : p.isOption .locationQuery = false → p.locationQuery = []
  uriPath : p.isOption .uriPath = false → p.uriPath = []
  observe : p.isOption .observe = false → p.observe = 0
  token : p.isOption .token = false → p.token = []
  accept : p.isOption .accept = !p.accept.isEmpty
  ifMatch : p.isOption .ifMatch = false → p.ifMatch = []
  fencePost : p.isOption .fencePost = false
  uriQuery : p.isOption .uriQuery = false → p.uriQuery = []
  block2 : p.isOption .block2 = true → takesBlock p.block2.num p.block2.size
  block1 : p.isOption .block1 = true → takesBlock p.block1.num p.block1.size
  ifNoneMatch : p.ifNoneMatch = false
  tags : p.etag.length ≤ coapTokenLen ∧ p.token.length ≤ coapTokenLen ∧
    p.ifMatch.length ≤ coapTokenLen
  accepts : p.accept.length ≤ coapMaxAcceptNum
  chunk : p.payload.length ≤ restMaxChunkSize

variable {p : CoapPacket Text}

theorem built_blank (type : MessageType) (code : UInt8) (mid : UInt16) :
    (initMessage type code mid).Built := by
  constructor <;> simp [initMessage, blank]

theorem set_ne_false {o : CoapOption} : (p.setOption o).isOption o ≠ false := by
  simp [setOption]

theorem Built.apply (h : p.Built) (s : Setting) : (p.apply s).Built := by
  cases s with
  | statusCode code => exact { h with }
  | contentType contentType => exact { h with contentType := fun no => absurd no set_ne_false }
  | accept accept =>
    rw [CoapPacket.apply, setHeaderAccept]
    split
    · exact { h with
        accept := by simp [setOption]
        accepts := by simpa [setOption] }
    · exact h
  | maxAge maxAge => exact { h with maxAge := fun no => absurd no set_ne_false }
  | etag etag =>
    exact { h with
      etag := fun no => absurd no set_ne_false
      tags := ⟨List.length_take_le .., h.tags.2⟩ }
  | ifMatch etag =>
    exact { h with
      ifMatch := fun no => absurd no set_ne_false
      tags := ⟨h.tags.1, h.tags.2.1, List.length_take_le ..⟩ }
  | ifNoneMatch => exact { h with }
  | token token =>
    exact { h with
      token := fun no => absurd no set_ne_false
      tags := ⟨h.tags.1, List.length_take_le .., h.tags.2.2⟩ }
  | proxyUri uri => exact { h with proxyUri := fun no => absurd no set_ne_false }
  | uriHost host => exact { h with uriHost := fun no => absurd no set_ne_false }
  | uriPath path => exact { h with uriPath := fun no => absurd no set_ne_false }
  | uriQuery query => exact { h with uriQuery := fun no => absurd no set_ne_false }
  | locationPath path =>
    have closing : ∀ q : CoapPacket Text, q.Built → ∀ path,
        (({ q with locationPath := path } : CoapPacket Text).setOption .locationPath).Built :=
      fun q h path => { h with locationPath := fun no => absurd no set_ne_false }
    rw [CoapPacket.apply, setHeaderLocationPath]
    refine closing _ ?_ _
    split
    · exact h
    · exact { h with locationQuery := fun no => absurd no set_ne_false }
  | locationQuery query => exact { h with locationQuery := fun no => absurd no set_ne_false }
  | observe observe => exact { h with observe := fun no => absurd no set_ne_false }
  | block2 num more size =>
    rw [CoapPacket.apply, setHeaderBlock2]
    split
    · rename_i takes
      exact { h with block2 := fun _ => takes }
    · exact h
  | block1 num more size =>
    rw [CoapPacket.apply, setHeaderBlock1]
    split
    · rename_i takes
      exact { h with block1 := fun _ => takes }
    · exact h
  | payload payload => exact { h with chunk := List.length_take_le .. }

theorem built_build (type : MessageType) (code : UInt8) (mid : UInt16) (settings : List Setting) :
    (build type code mid settings).Built := by
  rw [build]
  generalize hq : initMessage type code mid = q
  have built : q.Built := hq ▸ built_blank type code mid
  clear hq
  induction settings generalizing q with
  | nil => exact built
  | cons s settings ih => exact ih (q.apply s) (built.apply s)

def fenced (p : CoapPacket Text) : Bool := p.options.any (·.1 = CoapOption.fencePost.number)

def received (p : CoapPacket Text) : CoapPacket Text :=
  { p with
    isOption := Function.update (fun o => decide (p.Present o)) .fencePost p.fenced
    proxyUri := []
    locationPath := rejoin slash p.locationPath
    locationQuery := rejoin '&'.toUInt8 p.locationQuery
    uriPath := rejoin slash p.uriPath
    uriQuery := rejoin '&'.toUInt8 p.uriQuery
    block2 := if p.isOption .block2 then p.block2.received else .zero
    block1 := if p.isOption .block1 then p.block1.received else .zero
    ifNoneMatch := p.isOption .ifNoneMatch }

def seen (p : CoapPacket Text) (done : CoapOption → Bool) (fence : Bool) : CoapPacket Text where
  type := p.type
  code := p.code
  mid := p.mid
  isOption := Function.update (fun o => done o && decide (p.Present o)) .fencePost fence
  contentType := if done .contentType then p.contentType else 0
  maxAge := if done .maxAge then p.maxAge else 0
  proxyUri := []
  etag := if done .etag then p.etag else []
  uriHost := if done .uriHost then p.uriHost else []
  locationPath := if done .locationPath then rejoin slash p.locationPath else []
  uriPort := 0
  locationQuery := if done .locationQuery then rejoin '&'.toUInt8 p.locationQuery else []
  uriPath := if done .uriPath then rejoin slash p.uriPath else []
  observe := if done .observe then p.observe else 0
  token := if done .token then p.token else []
  accept := if done .accept then p.accept else []
  ifMatch := if done .ifMatch then p.ifMatch else []
  block2 := if done .block2 && p.isOption .block2 then p.block2.received else .zero
  block1 := if done .block1 && p.isOption .block1 then p.block1.received else .zero
  uriQuery := if done .uriQuery then rejoin '&'.toUInt8 p.uriQuery else []
  ifNoneMatch := done .ifNoneMatch && p.isOption .ifNoneMatch
  payload := []

def reads (p q : CoapPacket Text) (o : CoapOption) : CoapPacket Text :=
  let q := q.setOption o
  match o with
  | .contentType => { q with contentType := p.contentType }
  | .maxAge => { q with maxAge := p.maxAge }
  | .etag => { q with etag := p.etag }
  | .uriHost => { q with uriHost := p.uriHost }
  | .locationPath => { q with locationPath := rejoin slash p.locationPath }
  | .locationQuery => { q with locationQuery := rejoin '&'.toUInt8 p.locationQuery }
  | .uriPath => { q with uriPath := rejoin slash p.uriPath }
  | .observe => { q with observe := p.observe }
  | .token => { q with token := p.token }
  | .accept => { q with accept := p.accept }
  | .ifMatch => { q with ifMatch := p.ifMatch }
  | .uriQuery => { q with uriQuery := rejoin '&'.toUInt8 p.uriQuery }
  | .block2 => { q with block2 := if p.isOption .block2 then p.block2.received else .zero }
  | .block1 => { q with block1 := if p.isOption .block1 then p.block1.received else .zero }
  | .ifNoneMatch => { q with ifNoneMatch := p.isOption .ifNoneMatch }
  | .proxyUri | .uriPort | .fencePost => q

theorem splitParts_ne_nil (c : UInt8) (fuel : Nat) (part s : Text) :
    splitParts c fuel part s ≠ [] := by
  induction fuel generalizing part s with
  | zero => simp [splitParts]
  | succ fuel ih =>
    cases s with
    | nil => simp [splitParts]
    | cons first rest =>
      rw [splitParts]
      split
      · exact List.cons_ne_nil _ _
      · exact ih _ _

theorem Built.present (h : p.Built) {o : CoapOption} (other : o ≠ .proxyUri) :
    p.Present o ↔ p.isOption o = true := by
  refine and_iff_left_of_imp fun set => ?_
  cases o with
  | proxyUri => exact absurd rfl other
  | accept =>
    rw [h.accept] at set
    simpa [values] using set
  | fencePost => exact absurd (h.fencePost.symm.trans set) Bool.false_ne_true
  | locationPath => exact splitParts_ne_nil _ _ _ _
  | locationQuery => exact splitParts_ne_nil _ _ _ _
  | uriPath => exact splitParts_ne_nil _ _ _ _
  | uriQuery => exact splitParts_ne_nil _ _ _ _
  | _ => exact List.cons_ne_nil _ _

theorem takeOptions_append (xs ys : List (Nat × Text)) (q : CoapPacket Text) :
    takeOptions (xs ++ ys) q = (takeOptions xs q).bind (takeOptions ys) := by
  induction xs generalizing q with
  | nil => rfl
  | cons x xs ih =>
    rw [List.cons_append, takeOptions, takeOptions]
    cases q.takeOption x.1 x.2 with
    | error e => rfl
    | ok q' => exact ih q'

theorem takeOptions_same {number : Nat} {f : CoapPacket Text → Text → CoapPacket Text}
    (taken : ∀ q value, takeOption q number value = .ok (f q value)) (values : List Text)
    (q : CoapPacket Text) :
    takeOptions (values.map (number, ·)) q = .ok (values.foldl f q) := by
  induction values generalizing q with
  | nil => rfl
  | cons value values ih =>
    rw [List.map_cons, takeOptions, taken]
    exact ih (f q value)

theorem foldl_join {o : CoapOption} {c : UInt8} {get : CoapPacket Text → Text}
    (string : IsString o) (own : ∀ (q : CoapPacket Text) s, get ((q.setOption o).setString o s) = s)
    {values : List Text} (some' : values ≠ []) (q : CoapPacket Text) :
    values.foldl (fun q value => (q.setOption o).setString o (joinOption (get q) value c)) q =
      (q.setOption o).setString o (values.foldl (joinOption · · c) (get q)) := by
  have again : ∀ (q : CoapPacket Text) s s',
      (((q.setOption o).setString o s).setOption o).setString o s' =
        (q.setOption o).setString o s' := by
    intro q s s'
    rcases string with rfl | rfl | rfl | rfl | rfl | rfl <;>
      simp [setOption, setString, Function.update_idem]
  induction values generalizing q with
  | nil => exact absurd rfl some'
  | cons value values ih =>
    rw [List.foldl_cons, List.foldl_cons]
    cases values with
    | nil => rfl
    | cons value' values => rw [ih (by simp), own, again]

section
variable {done : CoapOption → Bool} {fence : Bool}

theorem seen_isOption {o : CoapOption} (present : p.Present o) (other : o ≠ .fencePost) :
    (p.seen (Function.update done o true) fence).isOption =
      Function.update (p.seen done fence).isOption o true := by
  funext o'
  by_cases post : o' = .fencePost
  · subst post
    rw [Function.update_of_ne (Ne.symm other)]
    simp [seen]
  · by_cases own : o' = o
    · subst own
      simp [seen, post, present]
    · simp [seen, post, own]

theorem seen_present {o : CoapOption} (present : p.Present o) (other : o ≠ .fencePost) :
    p.seen (Function.update done o true) fence = p.reads (p.seen done fence) o := by
  have shape : p.seen (Function.update done o true) fence =
      { p.reads (p.seen done fence) o with
        isOption := (p.seen (Function.update done o true) fence).isOption } := by
    cases o <;> rfl
  rw [shape, seen_isOption present other]
  cases o <;> rfl

theorem seen_absent {o : CoapOption} (h : p.Built) (absent : ¬p.Present o) :
    p.seen (Function.update done o true) fence = p.seen done fence := by
  have unset : o ≠ .proxyUri → p.isOption o = false := fun proxy => by
    rw [h.present proxy] at absent
    exact Bool.eq_false_iff.mpr absent
  have isOption : (p.seen (Function.update done o true) fence).isOption =
      (p.seen done fence).isOption := by
    funext o'
    by_cases own : o' = o
    · subst own
      simp [seen, absent, Function.update_apply]
    · simp [seen, own, Function.update_apply]
  cases o with
  | contentType => simp_all [seen, h.contentType]
  | maxAge => simp_all [seen, h.maxAge]
  | proxyUri => simp_all [seen]
  | etag => simp_all [seen, h.etag]
  | uriHost => simp_all [seen, h.uriHost]
  | locationPath => simp_all [seen, h.locationPath]
  | uriPort => simp_all [seen]
  | locationQuery => simp_all [seen, h.locationQuery]
  | uriPath => simp_all [seen, h.uriPath]
  | observe => simp_all [seen, h.observe]
  | token => simp_all [seen, h.token]
  | accept =>
    have none : p.accept = [] := by simpa [h.accept] using unset
    simp_all [seen]
  | ifMatch => simp_all [seen, h.ifMatch]
  | fencePost => simp_all [seen]
  | uriQuery => simp_all [seen, h.uriQuery]
  | block2 => simp_all [seen]
  | block1 => simp_all [seen]
  | ifNoneMatch => simp_all [seen]

theorem take_joined {o : CoapOption} {get : CoapPacket Text → Text} (string : IsString o)
    (own : ∀ (q : CoapPacket Text) s, get ((q.setOption o).setString o s) = s)
    (present : p.Present o) (c : UInt8)
    (taken : ∀ q value, takeOption q o.number value =
      .ok ((q.setOption o).setString o (joinOption (get q) value c)))
    (empty : get (p.seen done fence) = []) :
    takeOptions ((p.values o).map (o.number, ·)) (p.seen done fence) =
      .ok (((p.seen done fence).setOption o).setString o
        ((p.values o).foldl (joinOption · · c) [])) := by
  rw [takeOptions_same taken, foldl_join string own present.2, empty]

theorem take_values {o : CoapOption} (h : p.Built) (present : p.Present o) (fresh : done o = false)
    (proxy : o ≠ .proxyUri) :
    takeOptions ((p.values o).map (o.number, ·)) (p.seen done fence) =
      .ok (p.reads (p.seen done fence) o) := by
  have set := present.1
  cases o with
  | contentType =>
    rw [reads, ← parseIntOption_intBytes p.contentType]
    rfl
  | maxAge =>
    rw [reads, ← parseIntOption_intBytes p.maxAge]
    rfl
  | proxyUri => exact absurd rfl proxy
  | etag =>
    rw [reads, ← List.take_of_length_le h.tags.1]
    rfl
  | uriHost => rfl
  | locationPath =>
    exact take_joined (by simp [IsString]) (fun _ _ => rfl) present slash (fun _ _ => rfl)
      (by simp [seen, setOption, fresh])
  | uriPort => exact absurd (h.uriPort.1.symm.trans set) Bool.false_ne_true
  | locationQuery =>
    exact take_joined (by simp [IsString]) (fun _ _ => rfl) present '&'.toUInt8 (fun _ _ => rfl)
      (by simp [seen, setOption, fresh])
  | uriPath =>
    exact take_joined (by simp [IsString]) (fun _ _ => rfl) present slash (fun _ _ => rfl)
      (by simp [seen, setOption, fresh])
  | observe =>
    have number : (parseIntOption (intBytes p.observe.toUInt32)).toUInt16 = p.observe := by
      rw [parseIntOption_intBytes, UInt16.toUInt16_toUInt32]
    rw [reads, ← number]
    rfl
  | token =>
    rw [reads, ← List.take_of_length_le h.tags.2.1]
    rfl
  | accept =>
    have number : ∀ a : UInt16, (parseIntOption (intBytes a.toUInt32)).toUInt16 = a := by
      intro a
      rw [parseIntOption_intBytes, UInt16.toUInt16_toUInt32]
    have none : (p.seen done fence).accept = [] := by simp [seen, fresh]
    have taken : ∀ (q : CoapPacket Text) value, takeOption q CoapOption.accept.number value =
        .ok { q.setOption .accept with
          accept := if q.accept.length < coapMaxAcceptNum then
            q.accept ++ [(parseIntOption value).toUInt16] else q.accept } := fun _ _ => rfl
    rw [takeOptions_same taken, values, reads, List.foldl_map]
    generalize p.seen done fence = q at none
    have few := h.accepts
    have some' := h.accept
    generalize p.accept = accept at few some' ⊢
    rcases accept with _ | ⟨a, _ | ⟨b, _ | ⟨c, more⟩⟩⟩
    · rw [set] at some'
      cases some'
    · simp [none, number, coapMaxAcceptNum]
    · simp [none, number, coapMaxAcceptNum, setOption]
    · simp only [List.length_cons, coapMaxAcceptNum] at few
      omega
  | ifMatch =>
    rw [reads, ← List.take_of_length_le h.tags.2.2]
    rfl
  | fencePost => exact absurd rfl present.2
  | uriQuery =>
    exact take_joined (by simp [IsString]) (fun _ _ => rfl) present '&'.toUInt8 (fun _ _ => rfl)
      (by simp [seen, setOption, fresh])
  | block2 =>
    rw [reads, if_pos set, ← BlockOption.ofValue_value (h.block2 set),
      ← parseIntOption_intBytes p.block2.value]
    rfl
  | block1 =>
    rw [reads, if_pos set, ← BlockOption.ofValue_value (h.block1 set),
      ← parseIntOption_intBytes p.block1.value]
    rfl
  | ifNoneMatch =>
    rw [reads, set]
    rfl

theorem Present.ne_fencePost {o : CoapOption} (present : p.Present o) : o ≠ .fencePost := by
  rintro rfl
  exact present.2 rfl

theorem take_fences (current : Nat) (o : CoapOption) :
    takeOptions (o.fences current) (p.seen done fence) =
      .ok (p.seen done (fence || (o.fences current).any (·.1 = CoapOption.fencePost.number))) := by
  rw [CoapOption.fences]
  split
  · have post : (p.seen done fence).setOption .fencePost = p.seen done true := by
      simp [setOption, seen]
    rw [List.any_cons, decide_eq_true rfl, Bool.true_or, Bool.or_true, ← post]
    rfl
  · rw [List.any_nil, Bool.or_false]
    rfl

theorem take_item (current : Nat) {o : CoapOption} (h : p.Built) (present : p.Present o)
    (fresh : done o = false) (proxy : o ≠ .proxyUri) :
    takeOptions (p.item current o) (p.seen done fence) =
      .ok (p.seen (Function.update done o true)
        (fence || (p.item current o).any (·.1 = CoapOption.fencePost.number))) := by
  have other := present.ne_fencePost
  have mark : ((p.values o).map (o.number, ·)).any (·.1 = CoapOption.fencePost.number) = false := by
    have apart : o.number ≠ CoapOption.fencePost.number := fun same =>
      other (CoapOption.number_inj same)
    simp [apart]
  rw [item, takeOptions_append, take_fences, List.any_append, mark, Bool.or_false,
    seen_present present other]
  exact take_values h present fresh proxy

theorem take_items (h : p.Built) {os : List CoapOption} (current : Nat)
    (direct : ∀ o ∈ os, p.Present o → o ≠ .proxyUri) (apart : os.Nodup)
    (fresh : ∀ o ∈ os, done o = false) :
    takeOptions (p.items current os) (p.seen done fence) =
      .ok (p.seen (os.foldl (fun done o => Function.update done o true) done)
        (fence || (p.items current os).any (·.1 = CoapOption.fencePost.number))) := by
  induction os generalizing current done fence with
  | nil => exact congrArg _ (congrArg _ (Bool.or_false _).symm)
  | cons o os ih =>
    obtain ⟨new, apart⟩ := List.nodup_cons.mp apart
    have later : ∀ o' ∈ os, Function.update done o true o' = false := fun o' h' => by
      have other : o' ≠ o := by
        rintro rfl
        exact new h'
      rw [Function.update_of_ne other]
      exact fresh o' (List.mem_cons_of_mem _ h')
    have direct' : ∀ o' ∈ os, p.Present o' → o' ≠ .proxyUri := fun o' h' =>
      direct o' (List.mem_cons_of_mem _ h')
    rw [items, List.foldl_cons]
    by_cases present : p.Present o
    · have here := List.mem_cons_self (a := o) (l := os)
      rw [if_pos present, takeOptions_append,
        take_item current h present (fresh o here) (direct o here present), List.any_append,
        ← Bool.or_assoc]
      exact ih o.number direct' apart later
    · rw [if_neg present, ← seen_absent h present]
      exact ih current direct' apart later

theorem items_append (os os' : List CoapOption) (current : Nat) :
    ∃ current', p.items current (os ++ os') = p.items current os ++ p.items current' os' := by
  induction os generalizing current with
  | nil => exact ⟨current, rfl⟩
  | cons o os ih =>
    rw [List.cons_append, items, items]
    split
    · obtain ⟨current', same⟩ := ih o.number
      exact ⟨current', by rw [same, List.append_assoc]⟩
    · exact ih current

theorem take_proxy (current : Nat) (os : List CoapOption) (present : p.Present .proxyUri) :
    takeOptions (p.items current (.proxyUri :: os)) (p.seen done fence) =
      .error .proxyingNotSupported := by
  rw [items, if_pos present, item, List.append_assoc, takeOptions_append, take_fences]
  cases hv : p.values .proxyUri with
  | nil => exact absurd hv present.2
  | cons value more => rfl

end

theorem seen_all (h : p.Built) {done : CoapOption → Bool}
    (all : ∀ o ≠ .fencePost, done o = true) :
    { p.seen done p.fenced with payload := p.payload } = p.received := by
  have isOption : (p.seen done p.fenced).isOption = p.received.isOption := by
    funext o
    by_cases post : o = .fencePost
    · simp [seen, received, post]
    · simp [seen, received, post, all o post]
  have shape : p.received = { p.received with isOption := (p.seen done p.fenced).isOption } := by
    rw [isOption]
  rw [shape]
  simp [seen, received, all, h.uriPort]

end CoapPacket
end EmmaNode
