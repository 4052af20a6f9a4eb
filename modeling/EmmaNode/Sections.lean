import EmmaNode.Client
import EmmaNode.Expressions
import EmmaNode.SectionScan

/-! The sections of an agent: the members of a JSON object with the keys and kinds of value of
the patterns, and where an agent that was given the object finds them. -/

namespace EmmaNode

open JsonText (Member Unquoted openBrace closeBrace colon)

def JsonText.Member.Opens (m : Member) (p : Pattern) : Prop :=
  m.key = p.key ∧ m.value.head? = some p.opener

instance (m : Member) (p : Pattern) : Decidable (m.Opens p) :=
  inferInstanceAs (Decidable (_ ∧ _))

/-- A member of an object, whatever its strings and however deep -/
structure JsonText.Member.Valid (m : Member) : Prop where
  key : (JsonText.content m.key).isSome
  value : ∃ o a, JsonText (fun s => (JsonText.content s).isSome) .value o a m.value

/-- A member whose strings have no escaped quote, and which is not too deep for the counters -/
structure JsonText.Member.Plain (m : Member) : Prop where
  key : Unquoted m.key
  value : JsonText Unquoted .value 254 255 m.value

namespace Agent
variable {P : Platform} {m : Member}

def found (P : Platform) (a : Agent) (m : Member) (cnt : Nat) : Pattern → Int := fun p =>
  if m.Opens p then P.int (a.size.toNat + (cnt + m.key.length + 3 : Nat)) else a.fileIndex p

theorem scan_member {a : Agent} (start : a.scanner.AtMember) (plain : m.Plain)
    (fresh : ∀ p, m.Opens p → a.fileIndex p = 0) {d : UInt8}
    (last : d = JsonStrings.comma ∨ d = closeBrace) (rest : Text) (cnt : Nat) :
    a.scan P (m.text ++ d :: rest) cnt = Agent.scan P rest (cnt + m.text.length + 1)
      { a with
        parser := (Scanner.top.parse d 0).1
        patternIndex := fun _ => 0
        fileIndex := a.found P m cnt } := by
  obtain ⟨calm, parser, index⟩ := start.key (P := P) plain.key.clear plain.key.nonzero
  generalize hs : a.scanner.turns P (JsonStrings.quoted m.key ++ [colon]) = sc at parser index
  have ready : sc.AtValue := by
    refine ⟨parser, fun p => ?_⟩
    rw [← UInt8.toNat_inj, index p]
    split
    · exact .inr rfl
    · exact .inl rfl
  obtain ⟨c, t, value, quiet, behind⟩ :=
    ready.rest (P := P) (fun _ h => h.clear) (fun _ h => h.nonzero) plain.value
  have clean := JsonText.nonzero (fun _ h => Unquoted.nonzero h) plain.value
  rw [value] at clean
  have nonzero : c ≠ 0 := fun e => clean (by simp [e])
  have meets (p : Pattern) : sc.Meets P c p ↔ m.Opens p := by
    have counts : (if m.key = p.key then p.key.length + 3 else 0) = p.key.length + 3 ↔
        m.key = p.key := by
      split <;> simp [*]
    rw [Scanner.meets_iff ready.within nonzero, index p, counts, Member.Opens, value, parser]
    simp only [List.head?_cons, Option.some.injEq, and_iff_left_iff_imp, and_imp]
    rintro - rfl
    rcases Scanner.opener_structural p with e | e <;> rw [e] <;> decide
  -- the byte behind the member
  have within : ((sc.turn P c).turns P t).Within :=
    (ready.within.turn nonzero).turns fun hm => clean (.tail _ hm)
  have apart : d ≠ 0 ∧ d ≠ JsonStrings.quote ∧ d ≠ JsonStrings.opening := by
    rcases last with rfl | rfl <;> decide
  have ends := quiet.append (Scanner.calm_other within apart.1 apart.2)
  have final : (sc.turn P c).turns P (t ++ [d]) = ⟨(Scanner.top.parse d 0).1, fun _ => 0⟩ := by
    rw [Scanner.turns_append]
    generalize (sc.turn P c).turns P t = before at behind within
    have other (p : Pattern) : d ∉ p.text := by
      rcases last with rfl | rfl <;> cases p <;> decide
    simp only [Scanner.turns, List.foldl_cons, List.foldl_nil, Scanner.turn, behind,
      JsonParser.parse_fst _ d 1, Pattern.advance_other (within _) apart.1 (other _)]
  have text : m.text ++ d :: rest =
      (JsonStrings.quoted m.key ++ [colon]) ++ (c :: ((t ++ [d]) ++ rest)) := by
    simp [Member.text, value]
  have length : m.text.length = m.key.length + 4 + t.length := by
    simp [Member.text, value, JsonStrings.quoted]
    omega
  have noted : (a.move sc).note P c (cnt + (JsonStrings.quoted m.key ++ [colon]).length) =
      a.found P m cnt := by
    have place : cnt + (JsonStrings.quoted m.key ++ [colon]).length = cnt + m.key.length + 3 := by
      simp [JsonStrings.quoted]
      omega
    funext p
    rw [note, place]
    exact if_congr (meets p) rfl rfl
  have count : cnt + (JsonStrings.quoted m.key ++ [colon]).length + 1 + (t ++ [d]).length =
      cnt + m.text.length + 1 := by
    simp [JsonStrings.quoted, length]
    omega
  -- the agent behind the first byte of the value
  obtain ⟨b, hb⟩ : ∃ b, b = { a.move (sc.turn P c) with fileIndex := a.found P m cnt } := ⟨_, rfl⟩
  have met := scan_meet (a := a.move sc) (fun p hm => fresh p ((meets p).mp hm)) (t ++ [d] ++ rest)
    (cnt + (JsonStrings.quoted m.key ++ [colon]).length)
  rw [noted] at met
  have there : b.scanner = sc.turn P c := by rw [hb]; rfl
  have on := scan_calm (a := b) (by rw [there]; exact ends) rest
    (cnt + (JsonStrings.quoted m.key ++ [colon]).length + 1)
  rw [there, final, count, hb] at on
  rw [text, scan_calm calm, hs]
  exact met.trans on

theorem scan_members {members : List Member} {a : Agent} (start : a.scanner.AtMember)
    (plain : ∀ m ∈ members, m.Plain) (keys : (members.map Member.key).Nodup)
    (fresh : ∀ m ∈ members, ∀ p, m.Opens p → a.fileIndex p = 0) (cnt : Nat) :
    ∃ b, a.scan P (JsonText.membersFrom members) cnt = (b, false) ∧
      (∀ p, (∀ m ∈ members, ¬m.Opens p) → b.fileIndex p = a.fileIndex p) ∧
      ∀ p front m back, members = front ++ m :: back → m.Opens p →
        b.fileIndex p =
          P.int (a.size.toNat + (cnt + JsonText.span front + m.key.length + 3 : Nat)) := by
  induction members generalizing a cnt with
  | nil =>
    have calm := Scanner.calm_other (P := P) start.within (c := closeBrace) (by decide) (by decide)
    refine ⟨_, scan_calm calm [] cnt, fun _ _ => rfl, fun p front m back split => ?_⟩
    cases front <;> cases split
  | cons m more ih =>
    obtain ⟨here, later⟩ := List.forall_mem_cons.mp plain
    obtain ⟨fresh', others⟩ := List.forall_mem_cons.mp fresh
    rw [List.map_cons, List.nodup_cons] at keys
    obtain ⟨apart, keys⟩ := keys
    have single {m' : Member} (hm' : m' ∈ more) {p : Pattern} (h : m'.Opens p) : ¬m.Opens p :=
      fun hm => apart (List.mem_map.mpr ⟨m', hm', h.1.trans hm.1.symm⟩)
    -- the members behind the first
    obtain ⟨b, scanned, absent, present⟩ : ∃ b, a.scan P (JsonText.membersFrom (m :: more)) cnt =
        (b, false) ∧
        (∀ p, (∀ m' ∈ more, ¬m'.Opens p) → b.fileIndex p = a.found P m cnt p) ∧
        ∀ p front m' back, more = front ++ m' :: back → m'.Opens p → b.fileIndex p =
          P.int (a.size.toNat +
            (cnt + m.text.length + 1 + JsonText.span front + m'.key.length + 3 : Nat)) := by
      cases more with
      | nil =>
        refine ⟨_, scan_member start here fresh' (.inr rfl) [] cnt, fun _ _ => rfl, ?_⟩
        intro p front m' back split
        cases front <;> cases split
      | cons next more =>
        have text : JsonText.membersFrom (m :: next :: more) =
          m.text ++ JsonStrings.comma :: JsonText.membersFrom (next :: more) := rfl
        have comma : (Scanner.top.parse JsonStrings.comma 0).1 = Scanner.top := by decide
        have ready : (Agent.scanner { a with
            parser := (Scanner.top.parse JsonStrings.comma 0).1
            patternIndex := fun _ => 0
            fileIndex := a.found P m cnt }).AtMember := ⟨comma, fun _ => rfl⟩
        rw [text, scan_member start here fresh' (.inl rfl)]
        refine ih ready later keys (fun m' hm' p h => ?_) _
        exact (if_neg (single hm' h)).trans (others m' hm' p h)
    refine ⟨b, scanned, fun p none' => ?_, fun p front m' back split h => ?_⟩
    · obtain ⟨notHere, notLater⟩ := List.forall_mem_cons.mp none'
      exact (absent p notLater).trans (if_neg notHere)
    · cases front with
      | nil =>
        obtain ⟨rfl, -⟩ := List.cons.inj split
        rw [absent p fun m' hm' h' => single hm' h' h]
        exact if_pos h
      | cons first front =>
        obtain ⟨rfl, rest⟩ := List.cons.inj split
        rw [present p front m' back rest h]
        simp only [JsonText.span, List.map_cons, List.sum_cons]
        congr 2
        omega

theorem scan_object {members : List Member} (a : Agent) (plain : ∀ m ∈ members, m.Plain)
    (keys : (members.map Member.key).Nodup) :
    ∃ b, a.reset.scan P (JsonText.objectText members) 0 = (b, false) ∧
      (∀ p, (∀ m ∈ members, ¬m.Opens p) → b.fileIndex p = 0) ∧
      ∀ p front m back, members = front ++ m :: back → m.Opens p →
        b.fileIndex p = P.int (JsonText.place front + m.key.length + 3 : Nat) := by
  have within : a.reset.scanner.Within := fun p => Nat.zero_le _
  have calm := Scanner.calm_other (P := P) within (c := openBrace) (by decide) (by decide)
  have start : (a.reset.move (a.reset.scanner.turns P [openBrace])).scanner.AtMember := by
    refine ⟨?_, fun p => ?_⟩
    · change (JsonParser.clean.parse openBrace 1).1 = Scanner.top
      decide
    · exact Pattern.advance_other (within p) (by decide) (by cases p <;> decide)
  obtain ⟨b, scanned, absent, present⟩ :=
    scan_members (P := P) start plain keys (fun _ _ _ _ => rfl) 1
  refine ⟨b, ?_, absent, fun p front m back split h => ?_⟩
  · rw [← scanned]
    exact scan_calm calm (JsonText.membersFrom members) 0
  · rw [present p front m back split h]
    congr 1
    exact Int.zero_add _

theorem regex_stop (a : Agent) (p : Pattern) :
    (a.regex P p).2 ≤ P.int a.size.toNat ∧
    (∀ q, a.fileIndex p < P.int (a.fileIndex q - q.text.length) →
      (a.regex P p).2 ≤ P.int (a.fileIndex q - q.text.length)) ∧
    ∀ bound, bound ≤ P.int a.size.toNat →
      (∀ q, a.fileIndex p < P.int (a.fileIndex q - q.text.length) →
        bound ≤ P.int (a.fileIndex q - q.text.length)) → bound ≤ (a.regex P p).2 := by
  have every (q : Pattern) : q ∈ Pattern.all := by cases q <;> decide
  have fold (patterns : List Pattern) (stop : Int) :
      ∀ result, result = patterns.foldl (fun stop q =>
      let temp := P.int (a.fileIndex q - q.text.length)
      if temp > a.fileIndex p ∧ temp < stop then temp else stop) stop → result ≤ stop ∧
      (∀ q ∈ patterns, a.fileIndex p < P.int (a.fileIndex q - q.text.length) →
        result ≤ P.int (a.fileIndex q - q.text.length)) ∧
      ∀ bound, bound ≤ stop → (∀ q, a.fileIndex p < P.int (a.fileIndex q - q.text.length) →
        bound ≤ P.int (a.fileIndex q - q.text.length)) → bound ≤ result := by
    induction patterns generalizing stop with
    | nil =>
      rintro _ rfl
      exact ⟨Int.le_refl _, nofun, fun _ h _ => h⟩
    | cons q rest ih =>
      intro result hr
      obtain ⟨le, later, least⟩ := ih _ result hr
      refine ⟨?_, fun r hr' behind => ?_, fun bound hb all => least bound ?_ all⟩
      · refine Int.le_trans le ?_
        simp only
        split <;> omega
      · rcases List.mem_cons.mp hr' with rfl | hr'
        · refine Int.le_trans le ?_
          simp only
          split <;> omega
        · exact later r hr' behind
      · simp only
        split
        · rename_i nearer
          exact all q nearer.1
        · exact hb
  obtain ⟨le, behind, least⟩ := fold Pattern.all _ _ rfl
  exact ⟨le, fun q => behind q (every q), least⟩

end Agent

/-- Every write of the file system succeeds. -/
def Platform.Writes (P : Platform) : Prop :=
  ∀ (file : Option Text) (offset : Int) (bytes : Text),
    ∃ new, P.cfsWrite file offset bytes = .wrote bytes.length new

namespace State
variable {P : Platform} {s s' : State} {uri : Text} {slot : Nat}

def storeBlocks (P : Platform) (uri : Text) : List Text → Nat → State → Option State
  | [], _, s => some s
  | block :: rest, offset, s =>
    let (s, n) := s.emmaResourceWrite P uri block (P.int offset)
    if n = block.length then storeBlocks P uri rest (offset + block.length) s else none

structure Sectioned (P : Platform) (s : State) (uri : Text) (slot : Nat) (text : Text) : Prop where
  agent : s.IsAgent uri slot
  size : (s.store.agents slot).size = UInt16.ofNat text.length
  scanned : (s.store.agents slot).reset.scan P text 0 = ((s.store.agents slot).resize 0, false)

theorem scanned_block (writes : P.Writes) {text block : Text} {b : Agent}
    (short : text.length + block.length < 65536) (agent : s.IsAgent uri slot)
    (front : text ≠ [] → s.Sectioned P uri slot text)
    (accepted : (s.store.agents slot).reset.scan P (text ++ block) 0 = (b, false)) :
    (s.emmaResourceWrite P uri block (P.int text.length)).2 = block.length ∧
      (s.emmaResourceWrite P uri block (P.int text.length)).1.Sectioned P uri slot (text ++ block) ∧
      ((s.emmaResourceWrite P uri block (P.int text.length)).1.store.agents slot).reset =
        (s.store.agents slot).reset := by
  have whole : (s.store.agents slot).reset.scan P (text ++ block) 0 = (b.resize 0, false) := by
    have sized := (Agent.scan_frame (P := P) (text ++ block) 0 (s.store.agents slot).reset).2
    rw [accepted] at sized
    have empty : b.size = 0 := sized
    rw [accepted, Agent.resize, ← empty]
  -- the scanner, which starts anew with a block at the start of the file
  obtain ⟨c, scan, behind, size⟩ : ∃ c, (s.store.agents slot).analyzeBlock P block
      (P.int text.length) = (c, false) ∧ c.resize 0 = b.resize 0 ∧
      c.size = UInt16.ofNat text.length := by
    unfold Agent.analyzeBlock
    cases text with
    | nil =>
      have start : P.int (([] : Text).length : Nat) = 0 := P.int_eq (by decide) (by decide)
      have sized := (Agent.scan_frame (P := P) block 0 (s.store.agents slot).reset).2
      rw [List.nil_append] at accepted
      rw [accepted] at sized
      rw [if_pos start]
      exact ⟨b, accepted, rfl, sized⟩
    | cons d text =>
      obtain ⟨-, size, scanned⟩ := front (List.cons_ne_nil _ _)
      have further : P.int ((d :: text).length : Nat) ≠ 0 := by
        have := P.int_nat (n := (d :: text).length) (by omega)
        rw [List.length_cons] at this ⊢
        omega
      have count : (s.store.agents slot).size.toNat + 0 =
          (0 : UInt16).toNat + (0 + (d :: text).length) := by
        rw [size, UInt16.toNat_ofNat', Nat.mod_eq_of_lt (by omega)]
        simp
      rw [Agent.scan_append, scanned] at accepted
      simp only [Agent.scan_resize count] at accepted
      have sized := (Agent.scan_frame (P := P) block 0 (s.store.agents slot)).2
      rw [if_neg further]
      rcases h : (s.store.agents slot).scan P block 0 with ⟨c, failed⟩
      rw [h] at accepted sized
      simp only [Prod.mk.injEq] at accepted
      obtain ⟨rfl, rfl⟩ := accepted
      exact ⟨c, rfl, rfl, sized.trans size⟩
  have frame := (s.store.agents slot).analyzeBlock_memoryIndex (P := P) block (P.int text.length)
  rw [scan] at frame
  have index : c.memoryIndex = (s.store.agents slot).memoryIndex := frame
  obtain ⟨new, wrote⟩ := writes (s.store.files c.memoryIndex) (P.int text.length) block
  rw [agent.write]
  have write : s.store.rootAgentWrite P slot block (P.int text.length) =
      ({ s.store with
        agents := Function.update s.store.agents slot
          { c with size := c.size + UInt16.ofInt block.length }
        files := Function.update s.store.files c.memoryIndex (some new) },
        (block.length : Int)) := by
    rw [Store.rootAgentWrite, scan]
    simp only [wrote]
  have total : c.size + UInt16.ofInt block.length = UInt16.ofNat (text ++ block).length := by
    rw [size, ofInt_nat (by omega), List.length_append, UInt16.ofNat_add]
  have reset : Agent.reset { c with size := c.size + UInt16.ofInt block.length } =
      (s.store.agents slot).reset := by
    simp only [Agent.reset, index]
  rw [write]
  refine ⟨rfl, ⟨⟨agent.root, agent.slot⟩, ?_, ?_⟩, ?_⟩
  · simp only [Function.update_self]
    exact total
  · simp only [Function.update_self, reset]
    exact whole.trans (Prod.ext behind.symm rfl)
  · simp only [Function.update_self, reset]

theorem storeBlocks_sectioned (writes : P.Writes) {text : Text} {blocks : List Text} {b : Agent}
    (short : text.length + blocks.flatten.length < 65536) (agent : s.IsAgent uri slot)
    (front : text ≠ [] → s.Sectioned P uri slot text)
    (accepted : (s.store.agents slot).reset.scan P (text ++ blocks.flatten) 0 = (b, false)) :
    ∃ s', s.storeBlocks P uri blocks text.length = some s' ∧
      (text ++ blocks.flatten ≠ [] → s'.Sectioned P uri slot (text ++ blocks.flatten)) ∧
      (s'.store.agents slot).reset = (s.store.agents slot).reset := by
  induction blocks generalizing s text with
  | nil =>
    rw [List.flatten_nil, List.append_nil]
    exact ⟨s, rfl, front, rfl⟩
  | cons block rest ih =>
    rw [List.flatten_cons, ← List.append_assoc] at accepted
    rw [List.flatten_cons, List.length_append] at short
    obtain ⟨c, first⟩ : ∃ c, (s.store.agents slot).reset.scan P (text ++ block) 0 = (c, false) := by
      rw [Agent.scan_append] at accepted
      split at accepted
      · cases accepted
      · exact ⟨_, ‹_›⟩
    obtain ⟨complete, sectioned, reset⟩ :=
      scanned_block writes (by omega) agent front first
    rw [← reset] at accepted
    obtain ⟨s', run, behind, kept⟩ := ih (by rw [List.length_append]; omega) sectioned.agent
      (fun _ => sectioned) accepted
    refine ⟨s', ?_, ?_, kept.trans reset⟩
    · rw [storeBlocks]
      simp only [complete, if_true]
      rwa [List.length_append] at run
    · rwa [List.flatten_cons, ← List.append_assoc]

end State

namespace JsonText.Member

/-- The member is the section: its key spells the name, and its value is of the right kind. -/
def Is (m : Member) (p : Pattern) : Prop :=
  JsonText.content m.key = some p.key ∧ m.value.head? = some p.opener

instance (m : Member) (p : Pattern) : Decidable (m.Is p) :=
  inferInstanceAs (Decidable (_ ∧ _))

end JsonText.Member

open JsonText (place objectText)

/-- `emma_resource_get_index_of_pattern` tells whether an object has a section, and where: from
the byte that opens the value to a place behind the value, with nothing of another section. -/
structure System.Finds (P : Platform) (u : System) (uri : Text) (members : List Member)
    (p : Pattern) : Prop where
  matched : (u.getIndexOfPattern P uri p).isSome ↔ ∃ m ∈ members, m.Is p
  located : ∀ front m back, members = front ++ m :: back → m.Is p → ∃ start stop : Nat,
    u.getIndexOfPattern P uri p = some ((start : Int), (stop : Int)) ∧
    start = place front + m.key.length + 3 ∧
    start + m.value.length ≤ stop ∧ stop ≤ (objectText members).length ∧
    ∀ front' m' back' q, members = front' ++ m' :: back' → m'.Is q → q ≠ p →
      stop ≤ place front' ∨ place front' + m'.text.length ≤ start

namespace Agent
variable {P : Platform} {a : Agent} {members : List Member}

structure Notes (P : Platform) (a : Agent) (members : List Member) : Prop where
  size : a.size.toNat = (objectText members).length
  absent : ∀ p, (∀ m ∈ members, ¬m.Opens p) → a.fileIndex p = 0
  present : ∀ p front m back, members = front ++ m :: back → m.Opens p →
    a.fileIndex p = P.int (place front + m.key.length + 3 : Nat)

theorem int_inside {n : Nat} (small : (objectText members).length < 2 ^ (P.intBits - 1))
    (inside : n ≤ (objectText members).length) : P.int n = n :=
  P.int_index (Nat.lt_of_le_of_lt inside small)

theorem int_outside {n : Nat} (short : n < 65536) (large : 2 ^ (P.intBits - 1) ≤ n) :
    P.int n < 0 := by
  rcases P.int_nat short with e | e
  · have upper := P.int_lt n
    omega
  · exact e

theorem Notes.none_before (notes : a.Notes P members) {p q : Pattern}
    (none' : ∀ m ∈ members, ¬m.Opens q)
    (start : 0 ≤ a.fileIndex p) : ¬a.fileIndex p < P.int (a.fileIndex q - q.text.length) := by
  have len := q.length_text_le
  rw [notes.absent q none', P.int_eq (by omega) (by omega)]
  omega

section Short
variable (notes : a.Notes P members) (small : (objectText members).length < 2 ^ (P.intBits - 1))
include notes small

theorem Notes.start {p : Pattern} {front back : List Member} {m : Member}
    (split : members = front ++ m :: back) (h : m.Opens p) :
    a.fileIndex p = (place front + m.key.length + 3 : Nat) := by
  have le := JsonText.place_le front m back
  have text : m.text.length = m.key.length + 3 + m.value.length := by
    simp [Member.text, JsonStrings.quoted]
    omega
  rw [notes.present p front m back split h]
  refine int_inside small ?_
  rw [split]
  omega

theorem Notes.before {p : Pattern} {front back : List Member} {m : Member}
    (split : members = front ++ m :: back) (h : m.Opens p) :
    P.int (a.fileIndex p - p.text.length) = (place front : Int) - 1 := by
  have le := JsonText.place_le front m back
  have ahead : place front = JsonText.span front + 1 := Nat.add_comm _ _
  have same : a.fileIndex p - p.text.length = (JsonText.span front : Nat) := by
    rw [notes.start small split h, p.length_text, h.1]
    push_cast [ahead]
    omega
  have inside : P.int (JsonText.span front : Nat) = JsonText.span front :=
    int_inside small (by rw [split]; omega)
  rw [same, inside, ahead]
  push_cast
  omega

theorem Notes.located {p : Pattern} {front back : List Member} {m : Member}
    (split : members = front ++ m :: back) (h : m.Opens p) : ∃ start stop : Nat,
      a.regex P p = ((start : Int), (stop : Int)) ∧ start = place front + m.key.length + 3 ∧
      start + m.value.length ≤ stop ∧ stop ≤ (objectText members).length ∧
      ∀ front' m' back' q, members = front' ++ m' :: back' → m'.Opens q → q ≠ p →
        stop ≤ place front' ∨ place front' + m'.text.length ≤ start := by
  have start := notes.start small split h
  have text : m.text.length = m.key.length + 3 + m.value.length := by
    simp [Member.text, JsonStrings.quoted]
    omega
  have some' : 0 < m.value.length := by
    have := h.2
    cases hv : m.value with
    | nil => simp [hv] at this
    | cons => exact Nat.succ_pos _
  have inside := JsonText.place_le front m back
  rw [← split] at inside
  have apart {front' m' back' q} (split' : members = front' ++ m' :: back') (h' : m'.Opens q)
      (other : q ≠ p) := JsonText.place_apart split split' fun e => other (by
    have keys : p.key = q.key := h.1.symm.trans (e ▸ h'.1)
    revert keys
    cases p <;> cases q <;> decide)
  obtain ⟨le, behind, least⟩ := regex_stop (P := P) a p
  have whole : P.int a.size.toNat = (objectText members).length := by
    rw [notes.size]
    exact int_inside small (Nat.le_refl _)
  -- the value is in front of whatever limits the section
  have covers : ((place front + m.text.length : Nat) : Int) ≤ (a.regex P p).2 := by
    refine least _ (by rw [whole]; omega) fun q further => ?_
    by_cases there : ∃ m' ∈ members, m'.Opens q
    · obtain ⟨m', hm', h'⟩ := there
      obtain ⟨front', back', split'⟩ := List.append_of_mem hm'
      rw [notes.before small split' h'] at further ⊢
      by_cases same : q = p
      · subst same
        rw [notes.start small split' h'] at further
        omega
      · rcases apart split' h' same with later | earlier
        · omega
        · omega
    · exact absurd further (notes.none_before (fun m' hm' h' => there ⟨m', hm', h'⟩) (by omega))
  refine ⟨place front + m.key.length + 3, (a.regex P p).2.toNat, ?_, rfl, ?_, ?_, ?_⟩
  · exact Prod.ext start (Int.toNat_of_nonneg (by omega)).symm
  · omega
  · omega
  · intro front' m' back' q split' h' other
    rcases apart split' h' other with later | earlier
    · left
      have nearer := behind q (by rw [notes.before small split' h']; omega)
      rw [notes.before small split' h'] at nearer
      omega
    · exact .inr (by omega)

end Short

end Agent

namespace System
variable {P : Platform} {u : System} {uri : Text} {slot : Nat} {members : List Member}
  {blocks : List Text}

theorem getIndexOfPattern_agent (agent : u.shared.IsAgent uri slot) (p : Pattern) :
    u.getIndexOfPattern P uri p = some ((u.shared.store.agents slot).regex P p) := by
  obtain ⟨i, hi, hdata⟩ := agent.resolve
  simp [getIndexOfPattern, agent.root, State.resolve, hi, hdata]

theorem sections_found_iff (agent : u.shared.IsAgent uri slot) (writes : P.Writes)
    (plain : ∀ m ∈ members, m.Plain)
    (spelled : ∀ m ∈ members, ∀ p : Pattern, JsonText.content m.key = some p.key → m.key = p.key)
    (distinct : (members.map fun m => JsonText.content m.key).Nodup)
    (cut : blocks.flatten = objectText members) (short : (objectText members).length < 65536)
    (p : Pattern) (_ : p ≠ .name) :
    (∃ s, u.shared.storeBlocks P uri blocks 0 = some s ∧
        Finds P { u with shared := s } uri members p) ↔
      (∃ m ∈ members, m.Is p) ∧ (objectText members).length < 2 ^ (P.intBits - 1) := by
  have opens (m : Member) (hm : m ∈ members) (q : Pattern) : m.Is q ↔ m.Opens q := by
    refine and_congr_left fun _ => ⟨spelled m hm q, fun e => ?_⟩
    rw [e]
    cases q <;> decide
  have keys : (members.map Member.key).Nodup := by
    refine List.Nodup.of_map JsonText.content ?_
    rwa [List.map_map]
  obtain ⟨b, scanned, absent, present⟩ :=
    Agent.scan_object (P := P) (u.shared.store.agents slot) plain keys
  obtain ⟨s, run, sectioned, reset⟩ : ∃ s, u.shared.storeBlocks P uri blocks 0 = some s ∧
      (objectText members ≠ [] → s.Sectioned P uri slot (objectText members)) ∧
      (s.store.agents slot).reset = (u.shared.store.agents slot).reset := by
    rw [← cut] at short scanned ⊢
    exact State.storeBlocks_sectioned writes
      (show ([] : Text).length + blocks.flatten.length < 65536 by simpa using short) agent
      (fun h => absurd rfl h) scanned
  obtain ⟨agent', size, indexed⟩ := sectioned (List.cons_ne_nil _ _)
  have final : (s.store.agents slot).resize 0 = b := by
    rw [reset, scanned] at indexed
    exact (congrArg Prod.fst indexed).symm
  have notes : (s.store.agents slot).Notes P members := by
    subst final
    refine ⟨?_, absent, present⟩
    rw [size, UInt16.toNat_ofNat', Nat.mod_eq_of_lt (by omega)]
  have index (q : Pattern) : getIndexOfPattern P { u with shared := s } uri q =
      some ((s.store.agents slot).regex P q) := getIndexOfPattern_agent agent' q
  constructor
  · rintro ⟨s', run', finds⟩
    obtain rfl := Option.some.inj (run.symm.trans run')
    obtain ⟨m, hm, h⟩ := finds.matched.mp (by rw [index]; rfl)
    refine ⟨⟨m, hm, h⟩, ?_⟩
    by_contra large
    obtain ⟨front, back, split⟩ := List.append_of_mem hm
    obtain ⟨start, stop, located, -⟩ := finds.located front m back split h
    rw [index, Option.some.injEq] at located
    have le := (Agent.regex_stop (P := P) (s.store.agents slot) p).1
    rw [located, notes.size] at le
    have negative := Agent.int_outside short (Nat.not_lt.mp large)
    omega
  · rintro ⟨there, small⟩
    refine ⟨s, run, ⟨iff_of_true (by rw [index]; rfl) there, fun front m back split h => ?_⟩⟩
    have own (m : Member) {front back} (split : members = front ++ m :: back) {q : Pattern} :
        m.Is q ↔ m.Opens q := opens m (by rw [split]; simp) q
    obtain ⟨start, stop, found, place, covers, inside, apart⟩ :=
      notes.located small split ((own m split).mp h)
    refine ⟨start, stop, by rw [index, found], place, covers, inside, ?_⟩
    exact fun front' m' back' q split' h' => apart front' m' back' q split' ((own m' split').mp h')

def taking : Platform :=
  { Platform.plain with
    cfsWrite file offset bytes := .wrote bytes.length (overlay (file.getD []) offset.toNat bytes) }

def withAgent : System := ⟨State.after State.firstAgent, .init⟩

theorem withAgent_agent : withAgent.shared.IsAgent State.newAgent 0 :=
  ⟨by decide, by decide +kernel⟩

def threeSections : List Member :=
  [⟨chars ['P', 'R', 'E'], JsonStrings.quoted (chars ['1'])⟩,
    ⟨chars ['P', 'O', 'S', 'T'], chars ['[', ']']⟩,
    ⟨chars ['T', 'A', 'R', 'G', 'E', 'T'], chars ['[', ']']⟩]

theorem sections_found_three : ∃ s, withAgent.shared.storeBlocks taking State.newAgent
    [(objectText threeSections).take 16, (objectText threeSections).drop 16] 0 = some s ∧
      Finds taking { withAgent with shared := s } State.newAgent threeSections .post := by
  have plain : ∀ m ∈ threeSections, m.Plain := by
    have spelled (s : Text) (h : (JsonText.content s).isSome ∧ JsonStrings.quote ∉ s) :
        Unquoted s := ⟨h.1, h.2⟩
    simp only [threeSections, List.forall_mem_cons, List.not_mem_nil, false_imp_iff, implies_true,
      and_true]
    refine ⟨⟨spelled _ (by decide), .string (spelled _ (by decide))⟩,
      ⟨spelled _ (by decide), .noElements⟩, ⟨spelled _ (by decide), .noElements⟩⟩
  have names : ∀ m ∈ threeSections, ∀ p ∈ Pattern.all,
      JsonText.content m.key = some p.key → m.key = p.key := by decide +kernel
  exact (sections_found_iff withAgent_agent (fun _ _ _ => ⟨_, rfl⟩) plain
    (fun m hm p => names m hm p (by cases p <;> decide)) (by decide +kernel) (by decide +kernel)
    (by decide +kernel) .post (by decide)).mpr ⟨by decide +kernel, by decide +kernel⟩

/-- In an object without members the program finds each section. -/
theorem section_found_absent : ¬ ∀ (P : Platform) (u : System) (uri : Text) (slot : Nat)
    (members : List Member) (blocks : List Text), u.shared.IsAgent uri slot → P.Writes →
    (∀ m ∈ members, m.Valid) → (members.map fun m => JsonText.content m.key).Nodup →
    blocks.flatten = objectText members → (∀ block ∈ blocks, block ≠ []) →
    (objectText members).length < 65536 → ∀ p, p ≠ .name →
    ∃ s, u.shared.storeBlocks P uri blocks 0 = some s ∧
      Finds P { u with shared := s } uri members p := by
  intro h
  obtain ⟨s, run, finds⟩ := h taking withAgent State.newAgent 0 [] [objectText []] withAgent_agent
    (fun _ _ _ => ⟨_, rfl⟩) nofun (by decide) (by decide) (by decide) (by decide) .pre (by decide)
  have found : (withAgent.shared.storeBlocks taking State.newAgent [objectText []] 0).all (fun s =>
      (getIndexOfPattern taking { withAgent with shared := s } State.newAgent .pre).isSome) := by
    decide +kernel
  rw [run] at found
  obtain ⟨m, hm, -⟩ := finds.matched.mp found
  cases hm

end System
end EmmaNode
