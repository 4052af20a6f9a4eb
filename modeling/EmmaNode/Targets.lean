import EmmaNode.TargetBlocks
import EmmaNode.Sections

/-! The targets of an agent, one call after the other. A call goes from the quote behind one
target to the quote behind the next; the last one goes on over the end of the list to the end
of its block. -/

namespace EmmaNode

structure Target where
  method : ClientMethod
  groups : List Text
  port : Nat
  uri : Text

def hexNumber (g : Text) : Nat :=
  g.foldl (fun n c => 16 * n + (JsonStrings.hexDigit c).getD 0) 0

namespace Target

def addressText (e : Target) : Text :=
  '['.toUInt8 :: (groupsText e.groups ++ [']'.toUInt8]) ++
    (':'.toUInt8 :: (decimal e.port ++ [slash]))

def text (e : Target) : Text := e.method.pattern ++ (e.addressText ++ e.uri)

structure Proper (e : Target) : Prop where
  method : e.method ≠ .unset
  eight : e.groups.length = maxIpChunks
  groups : ∀ g ∈ e.groups, g ≠ [] ∧ g.length ≤ 4 ∧ ∀ c ∈ g, (JsonStrings.hexDigit c).isSome
  port : e.port < 65536
  uri : e.uri ≠ [] ∧ e.uri.length ≤ emmaMaxUriSize ∧ quote ∉ e.uri

end Target

/-- What a call hands out for a target -/
structure TargetReader.Delivers (t : TargetReader) (e : Target) : Prop where
  method : t.method = e.method
  address : ∀ i : Fin maxIpChunks, (t.parser.address i).toNat = hexNumber (e.groups.getD i [])
  port : t.parser.port.toNat = e.port
  uri : ∀ i < e.uri.length, t.uri i = e.uri.getD i 0
  ended : t.uri e.uri.length = 0

/-! ### Hexadecimal groups -/

theorem hexDigit_digit {c : UInt8} :
    (JsonStrings.hexDigit c).isSome ↔ AddressParser.isHexDigit c := by
  unfold JsonStrings.hexDigit AddressParser.isHexDigit
  split_ifs <;> simp_all

theorem hexNumber_eq {g : Text} (digits : ∀ c ∈ g, (JsonStrings.hexDigit c).isSome) :
    hexNumber g = axntoi g := by
  have step (n : Nat) (c : UInt8) (h : (JsonStrings.hexDigit c).isSome) :
      16 * n + (JsonStrings.hexDigit c).getD 0 =
        if '0'.toUInt8 ≤ c ∧ c ≤ '9'.toUInt8 then 16 * n + (c.toNat - 48)
        else if 'a'.toUInt8 ≤ c ∧ c ≤ 'f'.toUInt8 then 16 * n + (c.toNat - 87)
        else 16 * n + (c.toNat - 55) := by
    revert h
    unfold JsonStrings.hexDigit
    split_ifs <;> simp
  unfold hexNumber axntoi
  induction g using List.reverseRecOn with
  | nil => rfl
  | append_singleton g c ih =>
    rw [List.foldl_append, List.foldl_append, ih fun d hd => digits d (List.mem_append_left _ hd)]
    exact step _ c (digits c (by simp))

theorem hexNumber_lt {g : Text} (short : g.length ≤ 4) : hexNumber g < 65536 := by
  have digit (c : UInt8) : (JsonStrings.hexDigit c).getD 0 ≤ 15 := by
    unfold JsonStrings.hexDigit
    split_ifs with a b d
    · have : c.toNat ≤ 57 := UInt8.le_iff_toNat_le.mp a.2
      exact Nat.sub_le_of_le_add (by omega)
    · have : c.toNat ≤ 102 := UInt8.le_iff_toNat_le.mp b.2
      exact Nat.sub_le_of_le_add (by omega)
    · have : c.toNat ≤ 70 := UInt8.le_iff_toNat_le.mp d.2
      exact Nat.sub_le_of_le_add (by omega)
    · exact Nat.zero_le _
  have bound (g : Text) : hexNumber g < 16 ^ g.length := by
    unfold hexNumber
    induction g using List.reverseRecOn with
    | nil => decide
    | append_singleton g c ih =>
      rw [List.foldl_append, List.length_append, List.length_singleton, Nat.pow_succ]
      have := digit c
      simp only [List.foldl_cons, List.foldl_nil]
      omega
  exact Nat.lt_of_lt_of_le (bound g) (Nat.pow_le_pow_right (n := 16) (by decide) short)

/-! ### In front of the method -/

namespace TargetScan
variable {P : Platform} {s s' : TargetScan} {c : UInt8} {t u : Text}

def isLead (c : UInt8) : Bool := c ∈ [quote, JsonStrings.comma, ' '.toUInt8, 9, 10, 13]

/-- No pattern is followed further than to its end. -/
def Settled (patternIndex : ClientMethod → UInt8) : Prop :=
  ∀ m, (patternIndex m).toNat ≤ m.pattern.length

def letter (m : ClientMethod) (i : UInt8) : UInt8 := m.pattern.getD i.toNat 0

theorem byte_letter {m : ClientMethod} {i : UInt8} (settled : i.toNat ≤ m.pattern.length) :
    m.byte P i.toNat = letter m i := by
  unfold ClientMethod.byte letter
  split
  · rfl
  · rw [if_pos (by omega), List.getD_eq_default _ _ (by omega)]

theorem lead_other (h : isLead c) {m : ClientMethod} {i : UInt8}
    (settled : i.toNat ≤ m.pattern.length) : m.byte P i.toNat ≠ c := by
  have letters : ∀ m : ClientMethod, ∀ b ∈ 0 :: m.pattern, isLead b = false := by
    intro m
    cases m <;> decide +kernel
  have member : letter m i ∈ 0 :: m.pattern := by
    by_cases inside : i.toNat < m.pattern.length
    · rw [letter, List.getD_eq_getElem _ _ inside]
      exact List.mem_cons_of_mem _ (List.getElem_mem _)
    · rw [letter, List.getD_eq_default _ _ (by omega)]
      exact List.mem_cons_self
  rw [byte_letter settled]
  rintro rfl
  exact absurd h (by rw [letters m _ member]; nofun)

theorem byte_start {m : ClientMethod} (named : m ≠ .unset) : m.byte P 0 ≠ 0 := by
  have letters : ∀ m : ClientMethod, m ≠ .unset → letter m 0 ≠ 0 := by
    intro m
    cases m <;> decide
  rw [show m.byte P 0 = letter m 0 from byte_letter (i := 0) (Nat.zero_le _)]
  exact letters m named

theorem arm_lead (h : isLead c) (unset : s.methodSet = false)
    (settled : Settled s.reader.patternIndex) :
    s.arm P c = { s with reader := { s.reader with patternIndex := fun _ => 0 } } := by
  have bracket : c ≠ '['.toUInt8 := by
    rintro rfl
    exact absurd h (by decide)
  have reset {m : ClientMethod} (named : m ≠ .unset) {r : TargetReader}
      (kept : r.patternIndex m = s.reader.patternIndex m) (rest : List ClientMethod) :
      matchMethod P c (m :: rest) { s with reader := r } =
        matchMethod P c rest
          { s with reader := { r with patternIndex := Function.update r.patternIndex m 0 } } := by
    rw [matchMethod]
    simp only [kept, if_neg (lead_other h (settled m)),
      if_neg (show m.byte P (0 : UInt8).toNat ≠ 0 from byte_start named)]
  have last : s.reader.patternIndex .unset = 0 :=
    UInt8.toNat_inj.mp (Nat.le_zero.mp (settled .unset))
  have zero : Function.update (Function.update (Function.update (Function.update
      s.reader.patternIndex .get 0) .put 0) .post 0) .delete 0 = fun _ => (0 : UInt8) := by
    funext m
    cases m
    · exact last
    all_goals rfl
  rw [arm_other unset bracket, ← zero]
  refine (reset (m := .get) (r := s.reader) (by decide) rfl _).trans ?_
  refine (reset (m := .put) (by decide) (by rfl) _).trans ?_
  refine (reset (m := .post) (by decide) (by rfl) _).trans ?_
  exact reset (m := .delete) (by decide) (by rfl) _

theorem feedBlock_lead (cnt : Nat) (lead : ∀ c ∈ t, isLead c) (filled : t ≠ [])
    (unset : s.methodSet = false) (search : s.found = false)
    (settled : Settled s.reader.patternIndex) :
    s.feedBlock P t cnt =
      some ({ s with reader := { s.reader with patternIndex := fun _ => 0 } }, cnt + t.length,
        none) := by
  have one {c : UInt8} (h : isLead c) {s : TargetScan} (unset : s.methodSet = false)
      (search : s.found = false) (settled : Settled s.reader.patternIndex) :
      s.feed P c =
        some ({ s with reader := { s.reader with patternIndex := fun _ => 0 } }, none) := by
    rw [feed_free search, arm_lead h unset settled]
    exact if_neg (by simp [unset])
  induction t generalizing s cnt with
  | nil => exact absurd rfl filled
  | cons c t ih =>
    rw [List.forall_mem_cons] at lead
    rw [feedBlock, one lead.1 unset search settled]
    cases t with
    | nil => rfl
    | cons d t =>
      have rest := ih (s := { s with reader := { s.reader with patternIndex := fun _ => 0 } })
        (cnt + 1) lead.2 (List.cons_ne_nil _ _) unset search fun m => Nat.zero_le _
      simp only [rest, List.length_cons, Nat.add_assoc, Nat.add_comm 1]

/-! ### The method -/

def advance (c : UInt8) : List ClientMethod → (ClientMethod → UInt8) →
    (ClientMethod → UInt8) × Option ClientMethod
  | [], i => (i, none)
  | m :: rest, i =>
    let j := if letter m (i m) = c then i m + 1 else 0
    if letter m j = 0 then (Function.update i m j, some m)
    else advance c rest (Function.update i m j)

theorem settled_update {i : ClientMethod → UInt8} (settled : Settled i) (some' : c ≠ 0)
    (m : ClientMethod) :
    (if letter m (i m) = c then i m + 1 else 0).toNat ≤ m.pattern.length ∧
      Settled (Function.update i m (if letter m (i m) = c then i m + 1 else 0)) := by
  have here : (if letter m (i m) = c then i m + 1 else 0).toNat ≤ m.pattern.length := by
    split
    · rename_i same
      have inside : (i m).toNat < m.pattern.length := by
        by_contra outside
        rw [letter, List.getD_eq_default _ _ (by omega)] at same
        exact some' same.symm
      have short : m.pattern.length ≤ 6 := by cases m <;> decide
      rw [UInt8.toNat_add, Nat.mod_eq_of_lt (by simp; omega)]
      exact inside
    · exact Nat.zero_le _
  refine ⟨here, fun m' => ?_⟩
  by_cases same : m' = m
  · rw [same, Function.update_self]
    exact here
  · rw [Function.update_of_ne same]
    exact settled m'

theorem matchMethod_advance (some' : c ≠ 0) (methods : List ClientMethod) {s : TargetScan}
    (settled : Settled s.reader.patternIndex) :
    Settled (advance c methods s.reader.patternIndex).1 ∧
    s.matchMethod P c methods =
      match advance c methods s.reader.patternIndex with
      | (patternIndex, none) => { s with reader := { s.reader with patternIndex } }
      | (patternIndex, some method) =>
        { s with methodSet := true, reader := { s.reader with patternIndex, method } } := by
  induction methods generalizing s with
  | nil => exact ⟨settled, rfl⟩
  | cons m rest ih =>
    obtain ⟨here, next⟩ := settled_update settled some' m
    rw [matchMethod, advance]
    simp only [byte_letter (settled m)]
    generalize (if letter m (s.reader.patternIndex m) = c then s.reader.patternIndex m + 1 else 0) =
      j at here next ⊢
    simp only [byte_letter here]
    split
    · exact ⟨next, rfl⟩
    · exact ih (s := { s with reader := { s.reader with
        patternIndex := Function.update s.reader.patternIndex m j } }) next

def search : Text → (ClientMethod → UInt8) → Option (ClientMethod → UInt8)
  | [], i => some i
  | c :: t, i =>
    match advance c ClientMethod.all i with
    | (i, none) => search t i
    | (_, some _) => none

theorem feedBlock_search (cnt : Nat) {i : ClientMethod → UInt8} (unset : s.methodSet = false)
    (free : s.found = false) (settled : Settled s.reader.patternIndex)
    (clear : ∀ c ∈ t, c ≠ 0 ∧ c ≠ '['.toUInt8) (run : search t s.reader.patternIndex = some i) :
    Settled i ∧ s.feedBlock P t cnt =
      some ({ s with reader := { s.reader with patternIndex := i } }, cnt + t.length, none) := by
  induction t generalizing s cnt with
  | nil =>
    cases run
    exact ⟨settled, rfl⟩
  | cons c t ih =>
    rw [List.forall_mem_cons] at clear
    obtain ⟨next, matched⟩ := matchMethod_advance (P := P) clear.1.1 ClientMethod.all settled
    rw [search] at run
    rcases hadv : advance c ClientMethod.all s.reader.patternIndex with ⟨j, _ | m⟩
    · rw [hadv] at run next matched
      have fed : s.feed P c =
          some ({ s with reader := { s.reader with patternIndex := j } }, none) := by
        rw [feed_free free, arm_other unset clear.1.2, matched]
        exact if_neg (by simp [unset])
      obtain ⟨last, rest⟩ := ih (s := { s with reader := { s.reader with patternIndex := j } })
        (cnt + 1) unset free next clear.2 run
      refine ⟨last, ?_⟩
      simp only [feedBlock, fed, rest, List.length_cons, Nat.add_assoc, Nat.add_comm 1]
    · rw [hadv] at run
      cases run

theorem parse_inner (a : AddressParser)
    (inner : c ≠ '['.toUInt8 ∧ c ≠ ']'.toUInt8 ∧ c ≠ slash ∧ c ≠ '"'.toUInt8) :
    ∃ b status, a.parse P c = some (b, status) ∧ status ≠ .done := by
  obtain ⟨open', close, slash', quote'⟩ := inner
  unfold AddressParser.parse
  rw [if_neg open', if_neg close, if_neg (not_or.mpr ⟨slash', quote'⟩)]
  split_ifs <;> exact ⟨_, _, rfl, nofun⟩

theorem feedBlock_method (cnt : Nat) {m : ClientMethod} (named : m ≠ .unset)
    (unset : s.methodSet = false) (free : s.found = false)
    (start : s.reader.patternIndex = fun _ => 0) :
    ∃ patternIndex parser, Settled patternIndex ∧ s.feedBlock P m.pattern cnt =
      some ({ s with
        methodSet := true, reader := { s.reader with patternIndex, parser, method := m } },
        cnt + m.pattern.length, none) := by
  obtain ⟨front, c, i, j, split, clear, inner, run, last⟩ : ∃ front c i j,
      m.pattern = front ++ [c] ∧
      (∀ c ∈ m.pattern, c ≠ 0 ∧ c ≠ '['.toUInt8) ∧
      (c ≠ '['.toUInt8 ∧ c ≠ ']'.toUInt8 ∧ c ≠ slash ∧ c ≠ '"'.toUInt8) ∧
      search front (fun _ => 0) = some i ∧ advance c ClientMethod.all i = (j, some m) := by
    cases m with
    | unset => exact absurd rfl named
    | get => exact ⟨chars ['G', 'E'], 'T'.toUInt8, _, _, rfl, by decide +kernel, by decide,
        rfl, rfl⟩
    | put => exact ⟨chars ['P', 'U'], 'T'.toUInt8, _, _, rfl, by decide +kernel, by decide,
        rfl, rfl⟩
    | post => exact ⟨chars ['P', 'O', 'S'], 'T'.toUInt8, _, _, rfl, by decide +kernel, by decide,
        rfl, rfl⟩
    | delete =>
      exact ⟨chars ['D', 'E', 'L', 'E', 'T'], 'E'.toUInt8, _, _, rfl, by decide +kernel,
        by decide, rfl, rfl⟩
  rw [split] at clear ⊢
  obtain ⟨settled, fed⟩ := feedBlock_search (P := P) cnt unset free
    (fun m => by rw [start]; exact Nat.zero_le _)
    (fun d hd => clear d (List.mem_append_left _ hd)) (start ▸ run)
  obtain ⟨settled', matched⟩ := matchMethod_advance (P := P) (clear c (by simp)).1 ClientMethod.all
    (s := { s with reader := { s.reader with patternIndex := i } }) settled
  obtain ⟨b, status, parsed, inside⟩ := parse_inner (P := P) s.reader.parser inner
  rw [last] at settled' matched
  refine ⟨j, b, settled', ?_⟩
  have armed : arm P { s with reader := { s.reader with patternIndex := i } } c =
      { s with methodSet := true, reader := { s.reader with patternIndex := j, method := m } } := by
    rw [arm_other (by exact unset) inner.1, matched]
  rw [feedBlock_next fed, feedBlock, feed_free (by exact free), armed]
  simp only [if_true, parsed, Option.map_some, inside, decide_false, feedBlock, List.length_append,
    List.length_singleton, Nat.add_assoc, free]

/-! ### The address and the URI -/

theorem feedBlock_feed (cnt : Nat) {b : AddressParser} {statuses : List AddressStatus}
    (set : s.methodSet = true) (free : s.found = false)
    (fed : AddressParser.feed P t s.reader.parser = some (b, statuses))
    (early : ∀ status ∈ statuses.dropLast, status ≠ .done) :
    s.feedBlock P t cnt = some ({ s with
      reader := { s.reader with parser := b }, found := statuses.getLast? = some .done },
      cnt + t.length, none) := by
  induction t generalizing s cnt statuses with
  | nil =>
    cases fed
    simp [feedBlock, ← free]
  | cons c t ih =>
    rw [AddressParser.feed, Option.bind_eq_some_iff] at fed
    obtain ⟨⟨a, status⟩, parsed, behind⟩ := fed
    obtain ⟨⟨b', later⟩, rest, e⟩ := Option.map_eq_some_iff.mp behind
    cases e
    clear behind
    have first : s.feed P c = some ({ s with
        reader := { s.reader with parser := a }, found := status = .done }, none) := by
      rw [feed_address set free, parsed]
      rfl
    rw [feedBlock, first]
    cases t with
    | nil =>
      cases rest
      simp [feedBlock]
    | cons d t =>
      have filled : later ≠ [] := by
        rintro rfl
        rw [AddressParser.feed, Option.bind_eq_some_iff] at rest
        obtain ⟨x, -, more⟩ := rest
        obtain ⟨y, -, e⟩ := Option.map_eq_some_iff.mp more
        exact List.cons_ne_nil _ _ (congrArg Prod.snd e)
      rw [List.dropLast_cons_of_ne_nil filled, List.forall_mem_cons] at early
      have more := ih (s := { s with
        reader := { s.reader with parser := a }, found := status = .done }) (cnt + 1) set
        (decide_eq_false early.1) rest early.2
      rw [List.getLast?_cons_of_ne_nil filled]
      simp only [more, List.length_cons, Nat.add_assoc, Nat.add_comm 1]

theorem feedBlock_uri (cnt : Nat) (found : s.found = true) (clear : quote ∉ t)
    (room : s.uriIndex + t.length ≤ emmaMaxUriSize) : ∃ uri,
    (∀ i < t.length, uri (s.uriIndex + i) = t.getD i 0) ∧
    (∀ i < s.uriIndex, uri i = s.reader.uri i) ∧
    s.feedBlock P t cnt = some ({ s with
      reader := { s.reader with uri }, uriIndex := s.uriIndex + t.length },
      cnt + t.length, none) := by
  induction t generalizing s cnt with
  | nil => exact ⟨s.reader.uri, nofun, fun _ _ => rfl, rfl⟩
  | cons c t ih =>
    rw [List.mem_cons, not_or] at clear
    rw [List.length_cons] at room
    have first : s.feed P c = some ({ s with
        reader := { s.reader with uri := Function.update s.reader.uri s.uriIndex c },
        uriIndex := s.uriIndex + 1 }, none) := by
      rw [feed_eq, if_pos found, if_neg (Ne.symm clear.1), if_pos (by omega)]
    obtain ⟨uri, copied, kept, fed⟩ := ih (s := { s with
        reader := { s.reader with uri := Function.update s.reader.uri s.uriIndex c },
        uriIndex := s.uriIndex + 1 }) (cnt + 1) found clear.2 (by simp only; omega)
    refine ⟨uri, fun i hi => ?_, fun i hi => ?_, ?_⟩
    · cases i with
      | zero =>
        rw [Nat.add_zero, kept _ (Nat.lt_succ_self _)]
        exact Function.update_self ..
      | succ i =>
        have := copied i (Nat.lt_of_succ_lt_succ hi)
        simpa [Nat.add_assoc, Nat.add_comm 1] using this
    · rw [kept i (Nat.lt_succ_of_lt hi)]
      exact Function.update_of_ne (Nat.ne_of_lt hi) ..
    · rw [feedBlock, first]
      simp only [fed, List.length_cons, Nat.add_assoc, Nat.add_comm 1]

/-- A scan at the start of a call -/
structure Fresh (s : TargetScan) : Prop where
  unset : s.methodSet = false
  free : s.found = false
  uriIndex : s.uriIndex = 0
  settled : Settled s.reader.patternIndex

theorem feedBlock_target (fresh : s.Fresh) {lead : Text} (leads : ∀ c ∈ lead, isLead c)
    (filled : lead ≠ []) {e : Target} (proper : e.Proper) (rest : Text) :
    ∃ s', s.feedBlock P (lead ++ (e.text ++ quote :: rest)) 0 =
        some (s', lead.length + e.text.length, some 1) ∧ s'.reader.Delivers e ∧
      Settled s'.reader.patternIndex ∧ s'.reader.parser.valid = 0 := by
  have hex (g : Text) (hg : g ∈ e.groups) : HexDigits g :=
    ⟨Nat.le_trans (proper.groups g hg).2.1 (by decide),
      fun c hc => hexDigit_digit.mp ((proper.groups g hg).2.2 c hc)⟩
  have some' : e.groups ≠ [] := fun none' => by
    have := proper.eight
    rw [none'] at this
    cases this
  -- up to the name of the method
  have led := feedBlock_lead (P := P) 0 leads filled fresh.unset fresh.free fresh.settled
  obtain ⟨patternIndex, parser, settled, method⟩ := feedBlock_method (P := P) (0 + lead.length)
    (s := { s with reader := { s.reader with patternIndex := fun _ => 0 } }) proper.method
    fresh.unset fresh.free rfl
  -- the address and the port
  obtain ⟨b, read, empty, closed⟩ := AddressParser.Reads.bracketed (P := P) (a := parser) some' hex
    (Nat.le_of_eq proper.eight) (.inl proper.eight)
  have port := closed.feed_port (P := P) empty (hexDigits_decimal proper.port)
  obtain ⟨k, fed⟩ : ∃ k, AddressParser.feed P e.addressText parser =
      some ({ b with digitBuf := decimal e.port, port := UInt16.ofInt (antoi P (decimal e.port)),
                     valid := 0 }, List.replicate k .more ++ [.done]) := by
    unfold AddressParser.Reads at read
    rw [Target.addressText, AddressParser.feed_append]
    simp only [read, port, Option.bind_some, Option.map_some]
    rw [← List.append_assoc, List.replicate_append_replicate]
    exact ⟨_, rfl⟩
  have addressed := feedBlock_feed (P := P) (0 + lead.length + e.method.pattern.length)
    (s := { s with methodSet := true, reader := { s.reader with
      patternIndex, parser, method := e.method } }) rfl fresh.free fed
    (by
      rw [List.dropLast_concat]
      intro status member
      rw [List.eq_of_mem_replicate member]
      nofun)
  rw [List.getLast?_concat, decide_eq_true rfl] at addressed
  -- the URI and the quote behind it
  obtain ⟨uri, copied, -, last⟩ := feedBlock_uri (P := P)
    (0 + lead.length + e.method.pattern.length + e.addressText.length)
    (s := { s with methodSet := true, found := true, reader := { s.reader with
      patternIndex, method := e.method, parser := { b with
        digitBuf := decimal e.port, port := UInt16.ofInt (antoi P (decimal e.port))
        valid := 0 } } })
    rfl proper.uri.2.2 (by simp only [fresh.uriIndex]; have := proper.uri.2.1; omega)
  simp only [fresh.uriIndex, Nat.zero_add] at copied last
  have length : lead.length + e.text.length =
      lead.length + e.method.pattern.length + e.addressText.length + e.uri.length := by
    simp only [Target.text, List.length_append]
    omega
  refine ⟨{ s with
    methodSet := true, found := true, uriIndex := e.uri.length, reader := { s.reader with
      patternIndex, method := e.method, uri := Function.update uri e.uri.length 0
      parser := { b with
        digitBuf := decimal e.port, port := UInt16.ofInt (antoi P (decimal e.port))
        valid := 0 } } },
    ?_, ⟨rfl, fun i => ?_, ?_, fun i hi => ?_, Function.update_self ..⟩, settled, rfl⟩
  · rw [length, feedBlock_next led, Target.text, List.append_assoc, feedBlock_next method,
      List.append_assoc, feedBlock_next addressed]
    simp only [Nat.zero_add, fresh.uriIndex]
    rw [feedBlock_next last, feedBlock, feed_eq, if_pos rfl, if_pos rfl]
  · have inside : (i : Nat) < e.groups.length := by
      rw [proper.eight]
      exact i.isLt
    have place : AddressParser.groupIndex e.groups i = i := by
      rw [AddressParser.groupIndex, proper.eight]
      split_ifs <;> omega
    have here : e.groups.getD i [] ∈ e.groups := by
      rw [List.getD_eq_getElem _ _ inside]
      exact List.getElem_mem _
    obtain ⟨-, short, digits⟩ := proper.groups _ here
    show (b.address i).toNat = _
    rw [closed.address i, place, hexNumber_eq digits]
    exact Nat.mod_eq_of_lt (hexNumber_eq digits ▸ hexNumber_lt short)
  · show (UInt16.ofInt (antoi P (decimal e.port))).toNat = e.port
    rw [antoi_literal P (decimal_literal _), decimalValue_decimal, P.ofInt_int,
      ofInt_nat proper.port, UInt16.toNat_ofNat', Nat.mod_eq_of_lt proper.port]
  · exact (Function.update_of_ne (Nat.ne_of_lt hi) ..).trans (copied i hi)

end TargetScan

/-! ### Behind the last target -/

namespace AddressParser
variable {P : Platform} {a : AddressParser} {c : UInt8} {t : Text}

/-- `getIPaddress` up to the first end of an address: what stands behind it, if there is one;
none when a call does not return. -/
def toEnd (P : Platform) : Text → AddressParser → Option (Option Text)
  | [], _ => some none
  | c :: t, a =>
    match a.parse P c with
    | none => none
    | some (b, status) => if status = .done then some (some t) else toEnd P t b

/-- No target is found: no address ends, or it is followed by no quote and no byte too many. -/
def Silent (P : Platform) (a : AddressParser) (t : Text) : Prop :=
  ∃ behind, a.toEnd P t = some behind ∧
    ∀ rest, behind = some rest → quote ∉ rest ∧ rest.length ≤ emmaMaxUriSize

theorem parse_closed (closed : a.valid = 0) (other : c ≠ '['.toUInt8) :
    ∃ b status, a.parse P c = some (b, status) ∧ status ≠ .done ∧ b.valid = 0 := by
  have chunk : a.chunk.valid = 0 := by
    unfold AddressParser.chunk
    split <;> exact closed
  have open' : a.valid ≠ 2 := by rw [closed]; decide
  unfold AddressParser.parse
  rw [if_neg other]
  split_ifs
  · exact ⟨_, _, rfl, nofun, chunk⟩
  · exact ⟨_, _, rfl, nofun, closed⟩
  · exact ⟨_, _, rfl, nofun, rfl⟩
  · exact ⟨_, _, rfl, nofun, closed⟩
  · simp only [if_neg open']
    exact ⟨_, _, rfl, nofun, rfl⟩
  · exact ⟨_, _, rfl, nofun, rfl⟩

theorem toEnd_closed (closed : a.valid = 0) :
    a.toEnd P t = init.toEnd P (t.dropWhile (· ≠ '['.toUInt8)) := by
  induction t generalizing a with
  | nil => rfl
  | cons c t ih =>
    by_cases bracket : c = '['.toUInt8
    · subst bracket
      rw [List.dropWhile_cons_of_neg (by simp), toEnd, toEnd, parse_open, parse_open]
      rfl
    · obtain ⟨b, status, parsed, more, still⟩ := parse_closed (P := P) closed bracket
      rw [List.dropWhile_cons_of_pos (by simpa using bracket), toEnd, parsed]
      simp only [if_neg more]
      exact ih still

end AddressParser

namespace TargetScan
variable {P : Platform} {s s' : TargetScan} {c : UInt8} {t u : Text} {cnt : Nat}

def armed (P : Platform) : Text → TargetScan → Text
  | [], _ => []
  | c :: t, s => if (s.arm P c).methodSet then c :: t else armed P t (s.arm P c)

def Passes (P : Platform) (s : TargetScan) (t : Text) : Prop :=
  ∃ s' n, s.feedBlock P t 0 = some (s', n, none)

theorem passes_cons {code : Option Nat} (h : s.feed P c = some (s', code)) :
    s.Passes P (c :: t) ↔ code = none ∧ s'.Passes P t := by
  have count := feedBlock_count (P := P) t 0 1 s'
  unfold Passes
  rw [feedBlock, h]
  cases code with
  | some code => simp
  | none =>
    simp only [true_and]
    rw [count]
    cases s'.feedBlock P t 0 with
    | none => simp
    | some result =>
      obtain ⟨s₂, n, code⟩ := result
      simp

theorem passes_uri (found : s.found = true) (inside : s.uriIndex ≤ emmaMaxUriSize) :
    s.Passes P t ↔ quote ∉ t ∧ s.uriIndex + t.length ≤ emmaMaxUriSize := by
  induction t generalizing s with
  | nil => exact iff_of_true ⟨_, _, rfl⟩ ⟨nofun, inside⟩
  | cons c t ih =>
    rw [List.mem_cons, not_or, List.length_cons]
    by_cases quoted : c = quote
    · rw [passes_cons (by rw [feed_eq, if_pos found, if_pos quoted])]
      exact iff_of_false (fun h => nomatch h.1) fun h => h.1.1 quoted.symm
    by_cases room : s.uriIndex < emmaMaxUriSize
    · rw [passes_cons (by rw [feed_eq, if_pos found, if_neg quoted, if_pos room]),
        ih (s := { s with
          reader := { s.reader with uri := Function.update s.reader.uri s.uriIndex c }
          uriIndex := s.uriIndex + 1 }) found room]
      simp only [true_and, Ne.symm quoted, not_false_eq_true]
      rw [Nat.add_assoc, Nat.add_comm 1]
    · rw [passes_cons (by rw [feed_eq, if_pos found, if_neg quoted, if_neg room])]
      exact iff_of_false (fun h => nomatch h.1) fun h => by omega

theorem passes_armed (set : s.methodSet = true) (free : s.found = false) (start : s.uriIndex = 0) :
    s.Passes P t ↔ s.reader.parser.Silent P t := by
  induction t generalizing s with
  | nil => exact iff_of_true ⟨_, _, rfl⟩ ⟨none, rfl, nofun⟩
  | cons c t ih =>
    have fed := feed_address (P := P) set free c
    unfold AddressParser.Silent
    rw [AddressParser.toEnd]
    cases parsed : s.reader.parser.parse P c with
    | none =>
      rw [parsed] at fed
      refine iff_of_false ?_ fun ⟨_, h, _⟩ => nomatch h
      rintro ⟨s', n, h⟩
      rw [feedBlock, fed] at h
      cases h
    | some result =>
      obtain ⟨b, status⟩ := result
      rw [parsed] at fed
      rw [passes_cons fed]
      by_cases done : status = .done
      · simp only [if_pos done, true_and, Option.some.injEq, exists_eq_left', forall_eq']
        rw [passes_uri (decide_eq_true done) (by simp only [start]; exact Nat.zero_le _)]
        simp only [start, Nat.zero_add]
      · simp only [if_neg done, true_and]
        exact ih set (decide_eq_false done) start

theorem matchMethod_frame (c : UInt8) (methods : List ClientMethod) (s : TargetScan) :
    (s.matchMethod P c methods).found = s.found ∧
      (s.matchMethod P c methods).uriIndex = s.uriIndex ∧
      (s.matchMethod P c methods).reader.parser = s.reader.parser := by
  induction methods generalizing s with
  | nil => exact ⟨rfl, rfl, rfl⟩
  | cons m rest ih =>
    rw [matchMethod]
    simp only
    generalize (if m.byte P (s.reader.patternIndex m).toNat = c then _ else (0 : UInt8)) = i
    split
    · exact ⟨rfl, rfl, rfl⟩
    · exact ih { s with reader := { s.reader with
        patternIndex := Function.update s.reader.patternIndex m i } }

theorem arm_frame (c : UInt8) (s : TargetScan) : (s.arm P c).found = s.found ∧
    (s.arm P c).uriIndex = s.uriIndex ∧ (s.arm P c).reader.parser = s.reader.parser := by
  unfold arm
  split
  · exact ⟨rfl, rfl, rfl⟩
  · split
    · exact ⟨rfl, rfl, rfl⟩
    · exact matchMethod_frame c _ s

theorem passes_iff (free : s.found = false) (start : s.uriIndex = 0) :
    s.Passes P t ↔ s.reader.parser.Silent P (armed P t s) := by
  induction t generalizing s with
  | nil => exact iff_of_true ⟨_, _, rfl⟩ ⟨none, rfl, nofun⟩
  | cons c t ih =>
    obtain ⟨found, index, parser⟩ := arm_frame (P := P) c s
    rw [armed]
    by_cases set : (s.arm P c).methodSet = true
    · have again : (s.arm P c).feed P c = s.feed P c := by
        rw [feed_free free, feed_free (found.trans free), arm_set set]
      rw [if_pos set, ← parser, ← passes_armed set (found.trans free) (index.trans start)]
      unfold Passes
      rw [feedBlock, feedBlock, again]
    · have fed : s.feed P c = some (s.arm P c, none) := by
        rw [feed_free free, if_neg set]
      rw [if_neg set, passes_cons fed, ← parser, ← ih (found.trans free) (index.trans start)]
      simp only [true_and]

theorem silent_armed (closed : s.reader.parser.valid = 0) : s.reader.parser.Silent P (armed P t s) ↔
    AddressParser.init.Silent P (t.dropWhile (· ≠ '['.toUInt8)) := by
  have same : s.reader.parser.toEnd P (armed P t s) =
      AddressParser.init.toEnd P (t.dropWhile (· ≠ '['.toUInt8)) := by
    induction t generalizing s with
    | nil => rfl
    | cons c t ih =>
      obtain ⟨-, -, parser⟩ := arm_frame (P := P) c s
      rw [armed]
      by_cases set : (s.arm P c).methodSet = true
      · rw [if_pos set]
        exact AddressParser.toEnd_closed closed
      · have other : c ≠ '['.toUInt8 := by
          rintro rfl
          by_cases already : s.methodSet = true
          · exact set (by rw [arm_set already, already])
          · exact set (by rw [arm, if_neg already, if_pos rfl])
        rw [if_neg set, List.dropWhile_cons_of_pos (by simpa using other), ← parser]
        exact ih (by rw [parser, closed])
  unfold AddressParser.Silent
  rw [same]

theorem feedBlock_code {n code : Nat} (h : s.feedBlock P t cnt = some (s', n, some code)) :
    code ≠ 0 := by
  induction t generalizing s cnt with
  | nil => cases h
  | cons c t ih =>
    rw [feedBlock] at h
    cases hf : s.feed P c with
    | none => simp [hf] at h
    | some result =>
      rw [hf] at h
      obtain ⟨s₁, _ | code'⟩ := result
      · exact ih h
      · cases h
        rw [feed_eq] at hf
        split_ifs at hf
        · cases hf
          decide
        · cases hf
        · cases hf
          decide
        · obtain ⟨x, -, e⟩ := Option.map_eq_some_iff.mp hf
          cases e
        · cases hf

end TargetScan

/-! ### The list -/

structure Target.Entry where
  target : Target
  before : Text
  behind : Text

namespace Target
open JsonStrings (comma opening closing)

structure Entry.Proper (e : Entry) : Prop where
  target : e.target.Proper
  before : JsonText.Blanks e.before
  behind : JsonText.Blanks e.behind

def tailText : Entry → List Entry → Text
  | e, [] => quote :: (e.behind ++ [closing])
  | e, e' :: es =>
    quote :: (e.behind ++ comma :: (e'.before ++ quote :: (e'.target.text ++ tailText e' es)))

def listing (w : Text) : List Entry → Text
  | [] => w ++ [closing]
  | e :: es => e.before ++ quote :: (e.target.text ++ tailText e es)

def tailLength : Entry → List Entry → Nat
  | _, [] => 0
  | e, e' :: es => e.behind.length + e'.before.length + e'.target.text.length + 3 + tailLength e' es

def lastCall : List Entry → Nat
  | [] => 0
  | e :: es => e.before.length + 1 + e.target.text.length + tailLength e es

end Target

namespace TargetReader
variable {P : Platform} {read : Int → Text} {text following : Text} {stop x : Nat}

def Enumerates (P : Platform) (read : Int → Text) : List Target → Option (TargetReader × Nat) → Prop
  | [], result => ∃ t, result = some (t, 0)
  | e :: rest, result =>
    ∃ t, result = some (t, 1) ∧ t.Delivers e ∧ Enumerates P read rest (t.next P read)

def scan (t : TargetReader) : TargetScan := ⟨t, false, 0, false⟩

def Ends (P : Platform) (text : Text) (stop : Nat) (t : TargetReader) : List Target → Nat → Prop
  | [], x => t.parser.Silent P (TargetScan.armed P (window text stop x)
      { t with startIndex := x, stopIndex := stop, patternIndex := fun _ => 0 }.scan)
  | _ :: _, x => AddressParser.init.Silent P ((window text stop x).dropWhile (· ≠ '['.toUInt8))

structure Resumes (t : TargetReader) (x stop : Nat) : Prop where
  start : t.startIndex = x
  stop : t.stopIndex = stop
  settled : TargetScan.Settled t.patternIndex

theorem Resumes.fresh {t : TargetReader} (r : t.Resumes x stop) : t.scan.Fresh :=
  ⟨rfl, rfl, rfl, r.settled⟩

theorem next_zero_iff (reads : Reads read text) (fits : stop < 2 ^ (P.intBits - 1))
    (short : stop ≤ 65536) {t : TargetReader} (r : t.Resumes x stop) :
    (∃ t', t.next P read = some (t', 0)) ↔ t.scan.Passes P (window text stop x) := by
  have enough : stop ≤ x + targetBlockSize * maxBlocks := Nat.le_trans short (Nat.le_add_left _ _)
  have result := nextFrom_window (s := t.scan) reads fits r.start r.stop enough
  unfold TargetScan.Passes
  cases scanned : t.scan.feedBlock P (window text stop x) 0 with
  | none =>
    rw [scanned] at result
    exact iff_of_false (fun ⟨_, h⟩ => nomatch result.symm.trans h) (fun ⟨_, _, h⟩ => nomatch h)
  | some found =>
    obtain ⟨s, n, _ | code⟩ := found
    · rw [scanned] at result
      exact iff_of_true result ⟨s, n, rfl⟩
    · rw [scanned] at result
      refine iff_of_false (fun ⟨_, h⟩ => ?_) (fun ⟨_, _, h⟩ => nomatch h)
      cases result.symm.trans h
      exact TargetScan.feedBlock_code scanned rfl

theorem window_front {front : Text} (here : text.drop x = front ++ following)
    (inside : x + front.length ≤ stop) : ∃ more, window text stop x = front ++ more := by
  rw [window, here, List.take_append, List.take_of_length_le]
  · exact ⟨_, rfl⟩
  · simp only [targetBlockSize]
    omega

theorem enumerates_cons (reads : Reads read text) (fits : stop < 2 ^ (P.intBits - 1))
    (short : stop ≤ 65536) {t : TargetReader} (r : t.Resumes x stop) {lead tail : Text} {e : Target}
    {rest : List Target} {ends : Prop} (leads : ∀ c ∈ lead, TargetScan.isLead c)
    (filled : lead ≠ []) (proper : e.Proper) (quoted : tail.head? = some quote)
    (here : text.drop x = lead ++ (e.text ++ tail) ++ following)
    (inside : x + (lead ++ (e.text ++ tail)).length ≤ stop)
    (later : ∀ t' : TargetReader, t'.Resumes (x + (lead.length + e.text.length)) stop →
      t'.parser.valid = 0 →
      text.drop (x + (lead.length + e.text.length)) = tail ++ following →
      (Enumerates P read rest (t'.next P read) ↔ ends)) :
    Enumerates P read (e :: rest) (t.next P read) ↔ ends := by
  obtain ⟨behind, rfl⟩ := List.head?_eq_some_iff.mp quoted
  obtain ⟨more, window'⟩ := window_front here inside
  have enough : stop ≤ x + targetBlockSize * maxBlocks := Nat.le_trans short (Nat.le_add_left _ _)
  have result := nextFrom_window (s := t.scan) reads fits r.start r.stop enough
  obtain ⟨s, scanned, delivers, settled, closed⟩ :=
    TargetScan.feedBlock_target (P := P) r.fresh leads filled proper (behind ++ more)
  rw [List.append_assoc, List.append_assoc, List.cons_append] at window'
  rw [window', scanned] at result
  simp only [List.length_append, List.length_cons] at inside
  have resumes : (s.moved (P.int (x + (lead.length + e.text.length) : Nat)) stop).reader.Resumes
      (x + (lead.length + e.text.length)) stop :=
    ⟨P.int_index (by omega), rfl, settled⟩
  have there : text.drop (x + (lead.length + e.text.length)) = quote :: behind ++ following := by
    rw [← List.drop_drop, here, ← List.append_assoc lead, List.append_assoc, ← List.length_append,
      List.drop_left]
  refine (Iff.trans ?_ (later _ resumes closed there))
  constructor
  · rintro ⟨_, same, -, others⟩
    cases result.symm.trans same
    exact others
  · exact fun others => ⟨_, result, ⟨delivers.method, delivers.address, delivers.port,
      delivers.uri, delivers.ended⟩, others⟩

theorem blank_lead {c : UInt8} (h : c = ' '.toUInt8 ∨ c = 9 ∨ c = 10 ∨ c = 13) :
    TargetScan.isLead c := by
  rcases h with rfl | rfl | rfl | rfl <;> decide

open Target (tailText tailLength Entry)
open JsonStrings (comma)

theorem head_tailText (e : Entry) (es : List Entry) : (tailText e es).head? = some quote := by
  cases es <;> rfl

theorem enumerates_tail (reads : Reads read text) (fits : stop < 2 ^ (P.intBits - 1))
    (short : stop ≤ 65536) {e : Entry} {es : List Entry} (proper : ∀ e' ∈ e :: es, e'.Proper)
    {t : TargetReader} (r : t.Resumes x stop) (closed : t.parser.valid = 0)
    (here : text.drop x = tailText e es ++ following)
    (inside : x + (tailText e es).length ≤ stop) :
    Enumerates P read (es.map (·.target)) (t.next P read) ↔ AddressParser.init.Silent P
      ((window text stop (x + tailLength e es)).dropWhile (· ≠ '['.toUInt8)) := by
  induction es generalizing e t x with
  | nil =>
    rw [List.map_nil, Enumerates, next_zero_iff reads fits short r,
      TargetScan.passes_iff rfl rfl]
    exact TargetScan.silent_armed closed
  | cons e' es ih =>
    rw [List.forall_mem_cons, List.forall_mem_cons] at proper
    obtain ⟨first, second, others⟩ := proper
    let lead := quote :: (e.behind ++ comma :: (e'.before ++ [quote]))
    have split : tailText e (e' :: es) = lead ++ (e'.target.text ++ tailText e' es) := by
      simp [tailText, lead]
    have leads : ∀ c ∈ lead, TargetScan.isLead c := by
      intro c member
      simp only [lead, List.mem_cons, List.mem_append, List.not_mem_nil, or_false] at member
      rcases member with rfl | blank | rfl | blank | rfl
      · decide
      · exact blank_lead (first.behind c blank)
      · decide
      · exact blank_lead (second.before c blank)
      · decide
    have length : x + tailLength e (e' :: es) =
        x + (lead.length + e'.target.text.length) + tailLength e' es := by
      simp only [tailLength, lead, List.length_cons, List.length_append, List.length_nil]
      omega
    rw [split] at here inside
    rw [length]
    refine enumerates_cons reads fits short r leads (List.cons_ne_nil _ _) second.target
      (head_tailText e' es) here inside fun t' resumes closed' there => ?_
    simp only [List.length_append] at inside
    exact ih (List.forall_mem_cons.mpr ⟨second, others⟩) resumes closed' there (by omega)

end TargetReader

/-! ### The calls for an agent -/

namespace System
variable {P : Platform} {u : System} {text following w : Text} {entries : List Target.Entry}
  {start stop : Nat}

theorem HasText.reads (text' : u.HasText text) :
    TargetReader.Reads (u.agentBytes P targetBlockSize) text where
  inside x := text'.agentBytes targetBlockSize x
  outside x negative := by
    obtain ⟨root, -, -⟩ := text'
    simp only [System.agentBytes, Store.emmaResourceRead, root]
    split
    · rfl
    · simp only [Store.rootAgentRead, if_pos negative]
      split <;> rfl

theorem stop_fits {uri : Text}
    (index : u.getIndexOfPattern P uri .target = some ((start : Int), (stop : Int))) :
    stop < 2 ^ (P.intBits - 1) ∧ stop ≤ 65536 := by
  obtain ⟨a, bounded⟩ : ∃ a : Agent, a.regex P .target = ((start : Int), (stop : Int)) := by
    unfold getIndexOfPattern at index
    split at index
    · exact ⟨_, Option.some.inj index⟩
    · cases index
  have le := (Agent.regex_stop (P := P) a .target).1
  rw [bounded] at le
  have upper := P.int_lt a.size.toNat
  have size := a.size.toNat_lt
  rcases P.int_nat size with same | negative
  · exact ⟨by omega, by omega⟩
  · omega

open Target (listing)

/-- The targets of a section are handed out in order and then no more, exactly if what is read
behind them holds none that the last call takes for one. -/
theorem targets_enumerated_iff (text' : u.HasText text)
    (index : u.getIndexOfPattern P u.client.resource .target = some ((start : Int), (stop : Int)))
    (here : text.drop start = '['.toUInt8 :: (listing w entries ++ following))
    (inside : start + 1 + (listing w entries).length ≤ stop) (proper : ∀ e ∈ entries, e.Proper)
    (t : TargetReader) :
    TargetReader.Enumerates P (u.agentBytes P targetBlockSize) (entries.map (·.target))
        (t.first P (u.agentBytes P targetBlockSize) (start, stop)) ↔
      t.Ends P text stop (entries.map (·.target)) (start + 1 + Target.lastCall entries) := by
  obtain ⟨fits, short⟩ := stop_fits index
  have front : text.drop (start + 1) = listing w entries ++ following := by
    rw [← List.drop_drop, here, List.drop_one, List.tail_cons]
  let t₀ : TargetReader :=
    { t with startIndex := start + 1, stopIndex := stop, patternIndex := fun _ => 0 }
  have begins : t₀.Resumes (start + 1) stop := ⟨rfl, rfl, fun _ => Nat.zero_le _⟩
  rw [show t.first P (u.agentBytes P targetBlockSize) (start, stop) = t₀.next P
    (u.agentBytes P targetBlockSize) from rfl]
  cases entries with
  | nil =>
    rw [List.map_nil, TargetReader.Enumerates,
      TargetReader.next_zero_iff text'.reads fits short begins, TargetScan.passes_iff rfl rfl]
    rfl
  | cons e es =>
    let lead := e.before ++ [quote]
    have split : listing w (e :: es) = lead ++ (e.target.text ++ Target.tailText e es) := by
      simp [listing, lead]
    have leads : ∀ c ∈ lead, TargetScan.isLead c := by
      intro c member
      simp only [lead, List.mem_append, List.mem_singleton] at member
      rcases member with blank | rfl
      · exact TargetReader.blank_lead ((proper e List.mem_cons_self).before c blank)
      · decide
    have length : start + 1 + Target.lastCall (e :: es) =
        start + 1 + (lead.length + e.target.text.length) + Target.tailLength e es := by
      simp only [Target.lastCall, lead, List.length_append, List.length_singleton]
      omega
    rw [split] at front inside
    rw [List.map_cons, TargetReader.Ends, length]
    refine TargetReader.enumerates_cons text'.reads fits short begins leads
      (List.append_ne_nil_of_right_ne_nil _ (List.cons_ne_nil _ _))
      (proper e List.mem_cons_self).target (TargetReader.head_tailText e es) front inside
      fun t' resumes closed there => ?_
    simp only [List.length_append] at inside
    exact TargetReader.enumerates_tail text'.reads fits short proper resumes closed there (by omega)

def running (text : Text) : System where
  shared := (withAgent.shared.storeBlocks taking State.newAgent [text] 0).getD withAgent.shared
  client := { withAgent.client with resource := State.newAgent }

def oneTarget : Target.Entry where
  target := ⟨.get, [chars ['1'], chars ['2'], chars ['3'], chars ['4'], chars ['5'], chars ['6'],
    chars ['7'], chars ['a']], 5683, chars ['x']⟩
  before := []
  behind := []

theorem oneTarget_proper : oneTarget.Proper where
  target := ⟨by decide, by decide, by decide +kernel, by decide, by decide⟩
  before := nofun
  behind := nofun

def otherTarget : Target.Entry where
  target := ⟨.put, [chars ['a', 'a', 'a', 'a'], chars ['0'], chars ['0'], chars ['0'], chars ['0'],
    chars ['0'], chars ['0'], chars ['1']], 80, chars ['L', '/', 'y']⟩
  before := chars [' ']
  behind := chars [' ']

theorem otherTarget_proper : otherTarget.Proper where
  target := ⟨by decide, by decide, by decide +kernel, by decide, by decide⟩
  before c member := .inl (List.mem_singleton.mp member)
  behind c member := .inl (List.mem_singleton.mp member)

def targetAgent (entries : List Target.Entry) (following : Text) : Text :=
  chars ['{', '"', 'T', 'A', 'R', 'G', 'E', 'T', '"', ':', '['] ++
    (listing [] entries ++ following)

theorem targets_enumerated_two : TargetReader.Enumerates taking
    ((running (targetAgent [oneTarget, otherTarget] (chars ['}']))).agentBytes taking
      targetBlockSize) [oneTarget.target, otherTarget.target]
    (TargetReader.init.first taking
      ((running (targetAgent [oneTarget, otherTarget] (chars ['}']))).agentBytes taking
        targetBlockSize) (10, 77)) := by
  have text' : (running (targetAgent [oneTarget, otherTarget] (chars ['}']))).HasText
      (targetAgent [oneTarget, otherTarget] (chars ['}'])) := by
    decide +kernel
  have index : (running (targetAgent [oneTarget, otherTarget] (chars ['}']))).getIndexOfPattern
      taking State.newAgent .target = some (((10 : Nat) : Int), ((77 : Nat) : Int)) := by
    decide +kernel
  have here : (targetAgent [oneTarget, otherTarget] (chars ['}'])).drop 10 =
      '['.toUInt8 :: (listing [] [oneTarget, otherTarget] ++ chars ['}']) := by
    decide +kernel
  refine (targets_enumerated_iff text' index here (by decide +kernel) ?_ _).mpr
    ⟨none, by decide +kernel, nofun⟩
  intro e member
  rcases List.mem_pair.mp member with rfl | rfl
  · exact oneTarget_proper
  · exact otherTarget_proper

def bracketed : Text := chars [',', '"', 'a', '"', ':', '"', '[', ':', ':', ']', '/', '"', '}']

/-- A bracketed string behind the list is taken for another target. -/
theorem targets_phantom : ¬ ∀ (P : Platform) (u : System) (text following w : Text)
    (entries : List Target.Entry) (start stop : Nat), u.HasText text →
    u.getIndexOfPattern P u.client.resource .target = some ((start : Int), (stop : Int)) →
    text.drop start = '['.toUInt8 :: (listing w entries ++ following) →
    start + 1 + (listing w entries).length ≤ stop → JsonText.Blanks w → (∀ e ∈ entries, e.Proper) →
    ∀ t : TargetReader, TargetReader.Enumerates P (u.agentBytes P targetBlockSize)
      (entries.map (·.target)) (t.first P (u.agentBytes P targetBlockSize) (start, stop)) := by
  intro h
  obtain ⟨t, first, -, t', ended⟩ := h taking (running (targetAgent [oneTarget] bracketed)) _
    bracketed [] [oneTarget] 10 54 ⟨by decide +kernel, by decide +kernel, rfl⟩ (by decide +kernel)
    (by decide +kernel) (by decide +kernel) nofun (by simpa using oneTarget_proper) .init
  have again : ((TargetReader.init.first taking
      ((running (targetAgent [oneTarget] bracketed)).agentBytes taking targetBlockSize)
      (10, 54)).bind fun r => (r.1.next taking
        ((running (targetAgent [oneTarget] bracketed)).agentBytes taking targetBlockSize)).map
        (·.2)) = some 1 := by
    decide +kernel
  rw [show TargetReader.init.first taking _ (10, 54) = some (t, 1) from first, Option.bind_some,
    ended] at again
  cases again

end System
end EmmaNode
