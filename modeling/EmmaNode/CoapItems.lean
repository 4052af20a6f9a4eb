import EmmaNode.CoapWire

/-! What a message is written with: the values of the options that are set, in the order of
their numbers, with a fence-post where a distance does not fit. The options are counted apart
from being written, and the count of fence-posts divides where the writer compares. -/

namespace EmmaNode

namespace CoapOption

def written : List CoapOption :=
  [contentType, maxAge, proxyUri, etag, uriHost, locationPath, uriPort, locationQuery, uriPath,
    observe, token, accept, ifMatch, uriQuery, block2, block1, ifNoneMatch]

theorem number_le (o : CoapOption) : o.number ≤ 21 := by
  cases o <;> decide

theorem written_pairwise : written.Pairwise fun o o' => o.number < o'.number := by
  decide

def fences (current : Nat) (o : CoapOption) : List (Nat × Text) :=
  if 15 < o.number - current then [(fencePost.number, [])] else []

theorem length_fences (current : Nat) (o : CoapOption) :
    (o.fences current).length = if 15 < o.number - current then 1 else 0 := by
  rw [fences]
  split <;> rfl

theorem insertFencePosts_near {number fuel current : Nat} (near : ¬15 < number - current) :
    insertFencePosts number fuel current = ([], current) := by
  cases fuel with
  | zero => rfl
  | succ fuel => rw [insertFencePosts, if_neg near]

theorem insertFencePosts_eq (o : CoapOption) (current : Nat) :
    insertFencePosts o.number o.number current =
      (optionCode.encode current (o.fences current), DistanceCode.last current (o.fences current)) := by
  by_cases far : 15 < o.number - current
  · -- there is one fence-post: no number is fifteen behind it
    have le := o.number_le
    have post : fencePost.number = 14 := rfl
    obtain ⟨fuel, enough⟩ : ∃ fuel, o.number = fuel + 1 := ⟨o.number - 1, by omega⟩
    have distance : fencePost.number - current % fencePost.number = fencePost.number - current := by
      rw [post, Nat.mod_eq_of_lt (by omega)]
    have place : current + (fencePost.number - current) = fencePost.number := by omega
    have near : ¬15 < o.number - fencePost.number := by omega
    have step : insertFencePosts o.number (fuel + 1) current =
        (optionHeader (fencePost.number - current) 0 ++ [], fencePost.number) := by
      simp only [insertFencePosts, if_pos far, distance, place, insertFencePosts_near near]
    rw [← enough] at step
    rw [step, fences, if_pos far]
    rfl
  · rw [insertFencePosts_near far, fences, if_neg far]
    rfl

end CoapOption

namespace CoapPacket

def values (p : CoapPacket Text) : CoapOption → List Text
  | .contentType => [intBytes p.contentType]
  | .maxAge => [intBytes p.maxAge]
  | .proxyUri => proxyPieces p.proxyUri.length p.proxyUri
  | .etag => [p.etag]
  | .uriHost => [p.uriHost]
  | .locationPath => split slash p.locationPath
  | .uriPort => [intBytes p.uriPort.toUInt32]
  | .locationQuery => split '&'.toUInt8 p.locationQuery
  | .uriPath => split slash p.uriPath
  | .observe => [intBytes p.observe.toUInt32]
  | .token => [p.token]
  | .accept => p.accept.map fun accept => intBytes accept.toUInt32
  | .ifMatch => [p.ifMatch]
  | .fencePost => []
  | .uriQuery => split '&'.toUInt8 p.uriQuery
  | .block2 => [intBytes p.block2.value]
  | .block1 => [intBytes p.block1.value]
  | .ifNoneMatch => [intBytes 0]

/-- An option that leaves something in the message -/
def Present (p : CoapPacket Text) (o : CoapOption) : Prop := p.isOption o = true ∧ p.values o ≠ []

instance (p : CoapPacket Text) (o : CoapOption) : Decidable (p.Present o) :=
  inferInstanceAs (Decidable (_ ∧ _))

def item (p : CoapPacket Text) (current : Nat) (o : CoapOption) : List (Nat × Text) :=
  o.fences current ++ (p.values o).map (o.number, ·)

def items (p : CoapPacket Text) : Nat → List CoapOption → List (Nat × Text)
  | _, [] => []
  | current, o :: more =>
    if p.Present o then p.item current o ++ p.items o.number more else p.items current more

def slips (p : CoapPacket Text) : Nat → List CoapOption → Nat
  | _, [] => 0
  | current, o :: more =>
    if p.Present o then
      (if o.number = current + 14 ∨ o.number = current + 15 then 1 else 0) + p.slips o.number more
    else p.slips current more

end CoapPacket

theorem encode_same (number : Nat) (values : List Text) :
    optionCode.encode number (values.map (number, ·)) =
      values.flatMap fun value => optionHeader 0 value.length ++ value := by
  induction values with
  | nil => rfl
  | cons value more ih =>
    rw [List.map_cons, DistanceCode.encode, Nat.sub_self, ih]
    rfl

theorem last_same (number : Nat) {values : List Text} (some' : values ≠ []) (current : Nat) :
    DistanceCode.last current (values.map (number, ·)) = number := by
  induction values generalizing current with
  | nil => exact absurd rfl some'
  | cons value more ih =>
    cases more with
    | nil => rfl
    | cons value' more => exact ih (by simp) number

namespace OptionWriter
variable {w : OptionWriter} {o : CoapOption} {values : List Text} {count : Nat}

theorem write_nil : w.write o count [] = w := rfl

theorem write_spec (some' : values ≠ []) :
    (w.write o count values).option = w.option ++
      optionCode.encode w.currentNumber (o.fences w.currentNumber ++ values.map (o.number, ·)) ∧
    (w.write o count values).currentNumber = o.number ∧
    (w.write o count values).optionCount = w.optionCount + UInt8.ofNat count := by
  cases values with
  | nil => exact absurd rfl some'
  | cons value more =>
    refine ⟨?_, rfl, rfl⟩
    rw [write, o.insertFencePosts_eq, DistanceCode.encode_append, List.map_cons,
      DistanceCode.encode, encode_same]
    simp only [optionCode, List.append_assoc]

def put (w : OptionWriter) (p : CoapPacket Text) (o : CoapOption) : OptionWriter :=
  w.ifOption p o fun w =>
    w.write o ((p.values o).length + if CoapOption.fencePost.number < o.number then w.posts o else 0)
      (p.values o)

end OptionWriter

namespace CoapPacket
variable (p : CoapPacket Text)

theorem serializeOptions_eq :
    p.serializeOptions = CoapOption.written.foldl (fun w o => w.put p o) .start := by
  rfl

theorem posts_eq {o : CoapOption} (other : o ≠ .fencePost) (current : Nat) :
    (if CoapOption.fencePost.number < o.number then
        (o.number - current) / CoapOption.fencePost.number else 0) =
      (o.fences current).length +
        if o.number = current + 14 ∨ o.number = current + 15 then 1 else 0 := by
  have le := o.number_le
  have post : CoapOption.fencePost.number = 14 := rfl
  have apart : o.number ≠ 14 := fun h => other (CoapOption.number_inj h)
  rw [CoapOption.length_fences, post]
  split_ifs <;> omega

theorem put_spec (w : OptionWriter) {o : CoapOption} (present : p.Present o) :
    (w.put p o).option =
        w.option ++ optionCode.encode w.currentNumber (p.item w.currentNumber o) ∧
      (w.put p o).currentNumber = o.number ∧
      (w.put p o).optionCount = w.optionCount + UInt8.ofNat ((p.item w.currentNumber o).length +
        if o.number = w.currentNumber + 14 ∨ o.number = w.currentNumber + 15 then 1 else 0) := by
  have other : o ≠ .fencePost := by
    rintro rfl
    exact present.2 rfl
  rw [OptionWriter.put, OptionWriter.ifOption, if_pos present.1]
  obtain ⟨option, number, count⟩ := @OptionWriter.write_spec w o _ ((p.values o).length +
    if CoapOption.fencePost.number < o.number then w.posts o else 0) present.2
  refine ⟨option, number, count.trans ?_⟩
  rw [OptionWriter.posts, posts_eq other, item, List.length_append, List.length_map]
  congr 2
  omega

theorem last_item (current : Nat) {o : CoapOption} (present : p.Present o) :
    DistanceCode.last current (p.item current o) = o.number := by
  rw [item, DistanceCode.last_append, last_same o.number present.2]

theorem put_absent (w : OptionWriter) {o : CoapOption} (absent : ¬p.Present o) :
    w.put p o = w := by
  rw [OptionWriter.put, OptionWriter.ifOption]
  split
  · rename_i set
    rw [not_not.mp fun some' => absent ⟨set, some'⟩, OptionWriter.write_nil]
  · rfl

theorem foldl_put (os : List CoapOption) (w : OptionWriter) :
    (os.foldl (fun w o => w.put p o) w).option =
        w.option ++ optionCode.encode w.currentNumber (p.items w.currentNumber os) ∧
      (os.foldl (fun w o => w.put p o) w).optionCount = w.optionCount +
        UInt8.ofNat ((p.items w.currentNumber os).length + p.slips w.currentNumber os) := by
  induction os generalizing w with
  | nil => exact ⟨(List.append_nil _).symm, (UInt8.add_zero _).symm⟩
  | cons o os ih =>
    rw [List.foldl_cons, items, slips]
    by_cases present : p.Present o
    · obtain ⟨option, count⟩ := ih (w.put p o)
      obtain ⟨option', number, count'⟩ := p.put_spec w present
      rw [option', number] at option
      rw [count', number] at count
      rw [if_pos present, if_pos present, option, count, DistanceCode.encode_append,
        p.last_item _ present, List.append_assoc, UInt8.add_assoc, ← UInt8.ofNat_add]
      refine ⟨rfl, ?_⟩
      congr 2
      rw [List.length_append]
      omega
    · rw [p.put_absent w present, if_neg present, if_neg present]
      exact ih w

theorem serializeOptions_spec :
    p.serializeOptions.option = optionCode.encode 0 (p.items 0 CoapOption.written) ∧
      p.serializeOptions.optionCount =
        UInt8.ofNat ((p.items 0 CoapOption.written).length + p.slips 0 CoapOption.written) := by
  rw [serializeOptions_eq]
  obtain ⟨option, count⟩ := p.foldl_put CoapOption.written .start
  exact ⟨option, count.trans (UInt8.zero_add _)⟩

def numbers (os : List CoapOption) : List Nat := (os.filter (p.Present ·)).map (·.number)

theorem slips_le (os : List CoapOption) (current : Nat) (ascending : os.Pairwise (·.number < ·.number))
    (le : ∀ o ∈ os, current ≤ o.number) : current + 14 * p.slips current os ≤ 21 ∨
      p.slips current os = 0 := by
  induction os generalizing current with
  | nil => exact .inr rfl
  | cons o os ih =>
    obtain ⟨later, ascending⟩ := List.pairwise_cons.mp ascending
    have here := le o List.mem_cons_self
    rw [slips]
    split
    · have := ih o.number ascending fun o' h => Nat.le_of_lt (later o' h)
      have := o.number_le
      split <;> omega
    · exact ih current ascending fun o' h => le o' (List.mem_cons_of_mem _ h)

theorem slips_eq_zero (os : List CoapOption) (current : Nat) :
    p.slips current os = 0 ↔
      (current :: p.numbers os).IsChain fun c n => n ≠ c + 14 ∧ n ≠ c + 15 := by
  induction os generalizing current with
  | nil => simp [slips, numbers]
  | cons o os ih =>
    rw [slips, numbers, List.filter_cons]
    by_cases present : p.Present o
    · rw [if_pos present, if_pos (decide_eq_true present), List.map_cons, List.isChain_cons_cons,
        Nat.add_eq_zero_iff, ih]
      refine and_congr_left fun _ => ?_
      split <;> omega
    · rw [if_neg present, if_neg (by simpa using present)]
      exact ih current

theorem length_items_le (items : List (Nat × Text)) (current : Nat) :
    items.length ≤ (optionCode.encode current items).length ∧
      ∀ x ∈ items, x.2.length ≤ (optionCode.encode current items).length := by
  induction items generalizing current with
  | nil => exact ⟨Nat.le_refl 0, fun x h => absurd h List.not_mem_nil⟩
  | cons x items ih =>
    obtain ⟨number, value⟩ := x
    obtain ⟨count, lengths⟩ := ih number
    obtain ⟨more, header⟩ := optionHeader_cons (number - current) value.length
    rw [DistanceCode.encode]
    simp only [optionCode, header, List.length_append, List.length_cons] at *
    refine ⟨by omega, fun y h => ?_⟩
    rcases List.mem_cons.mp h with rfl | h
    · simp only
      omega
    · have := lengths y h
      omega

theorem encodes_same {number current : Nat} {values : List Text} (le : current ≤ number)
    (near : number - current < 16) (short : ∀ value ∈ values, value.length < 271) :
    optionCode.Encodes current (values.map (number, ·)) := by
  induction values generalizing current with
  | nil => trivial
  | cons value more ih =>
    refine ⟨⟨le, near, short value List.mem_cons_self⟩, ?_⟩
    refine ih (Nat.le_refl number) (by omega) fun value' h => ?_
    exact short value' (List.mem_cons_of_mem _ h)

theorem item_encodes {current : Nat} {o : CoapOption} (le : current ≤ o.number)
    (short : ∀ x ∈ p.item current o, x.2.length < 271) :
    optionCode.Encodes current (p.item current o) := by
  have high := o.number_le
  have values : ∀ value ∈ p.values o, value.length < 271 := fun value h =>
    short (o.number, value) (List.mem_append_right _ (List.mem_map_of_mem h))
  rw [item, CoapOption.fences]
  have post : CoapOption.fencePost.number = 14 := rfl
  split
  · refine ⟨⟨by omega, by omega, by decide⟩, ?_⟩
    exact encodes_same (by omega) (by omega) values
  · exact encodes_same le (by omega) values

theorem items_encodes {os : List CoapOption} {current : Nat}
    (ascending : os.Pairwise (·.number < ·.number)) (le : ∀ o ∈ os, current ≤ o.number)
    (short : ∀ x ∈ p.items current os, x.2.length < 271) :
    optionCode.Encodes current (p.items current os) := by
  induction os generalizing current with
  | nil => trivial
  | cons o os ih =>
    obtain ⟨later, ascending⟩ := List.pairwise_cons.mp ascending
    rw [items] at short ⊢
    split at short
    · rename_i present
      rw [if_pos present, DistanceCode.encodes_append, p.last_item _ present]
      refine ⟨p.item_encodes (le o List.mem_cons_self) fun x h => ?_,
        ih ascending (fun o' h => Nat.le_of_lt (later o' h)) fun x h => ?_⟩
      · exact short x (List.mem_append_left _ h)
      · exact short x (List.mem_append_right _ h)
    · rename_i absent
      rw [if_neg absent]
      exact ih ascending (fun o' h => le o' (List.mem_cons_of_mem _ h)) short

def options : List (Nat × Text) := p.items 0 CoapOption.written

theorem optionCount_eq (small : p.serializeOptions.option.length ≤ coapMaxHeaderSize) :
    p.serializeOptions.optionCount.toNat = p.options.length + p.slips 0 CoapOption.written ∧
      p.slips 0 CoapOption.written ≤ 1 ∧ p.options.length ≤ coapMaxHeaderSize := by
  obtain ⟨option, count⟩ := p.serializeOptions_spec
  have enough := (length_items_le p.options 0).1
  have one := p.slips_le CoapOption.written 0 CoapOption.written_pairwise fun o _ => Nat.zero_le _
  rw [option] at small
  have size : coapMaxHeaderSize = 50 := rfl
  rw [count, UInt8.toNat_ofNat', Nat.mod_eq_of_lt]
  · exact ⟨rfl, by omega, Nat.le_trans enough small⟩
  · rw [← options] at *
    omega

end CoapPacket
end EmmaNode
