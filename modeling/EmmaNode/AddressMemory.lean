import EmmaNode.Addresses

/-! `getIPaddress` in its memory: six characters and eight words, each access checked. The
loop that moves words up counts an unsigned index down; with no empty group behind the first
it never finds its end, and leaves the address. -/

namespace EmmaNode

/-- An address with fewer than eight groups of which none is empty but the first -/
def Gapless (text : Text) : Prop :=
  ∃ front groups back, text = front ++ '['.toUInt8 :: (groupsText groups ++ ']'.toUInt8 :: back) ∧
    groups ≠ [] ∧ groups.length < maxIpChunks ∧ (∀ g ∈ groups, HexDigits g) ∧
    ∀ g ∈ groups.tail, g ≠ []

theorem Gapless.append {t : Text} (h : Gapless t) (u : Text) : Gapless (t ++ u) := by
  obtain ⟨front, groups, back, rfl, rest⟩ := h
  exact ⟨front, groups, back ++ u, by simp, rest⟩

namespace AddressParser
variable {P : Platform} {a b : AddressParser} {c : UInt8} {t : Text} {status : AddressStatus}

/-- An address that is open, with the groups so far and the digits behind them -/
def Opened (t : Text) (a : AddressParser) : Prop :=
  ∃ (front : Text) (groups : List Text) (last : Text) (start : AddressParser),
    t = front ++ '['.toUInt8 :: (groups.flatMap (· ++ [':'.toUInt8]) ++ last) ∧
    groups.length < maxIpChunks ∧ (∀ g ∈ groups ++ [last], HexDigits g) ∧
    a = { start.opened.stored groups with digitBuf := last }

/-- What the state says about the text that led to it -/
inductive Tracks (t : Text) (a : AddressParser) : Prop
  | invalid : a.valid = 0 → Tracks t a
  | full : a.addIndex = maxIpChunks → Tracks t a
  | opened : Opened t a → Tracks t a

theorem opens (t : Text) (a : AddressParser) : Opened (t ++ ['['.toUInt8]) a.opened :=
  ⟨t, [], [], a, rfl, by decide, by simp [HexDigits], rfl⟩

theorem valid_chunk (a : AddressParser) : a.chunk.valid = a.valid := by
  unfold chunk
  split <;> rfl

theorem parse_invalid (h : a.valid = 0) (other : c ≠ '['.toUInt8) :
    ∃ b status, a.parse P c = some (b, status) ∧ b.valid = 0 := by
  rw [parse, if_neg other]
  split_ifs
  · exact ⟨_, _, rfl, by rw [valid_chunk, h]⟩
  · exact ⟨_, _, rfl, h⟩
  · exact ⟨_, _, rfl, rfl⟩
  · exact ⟨_, _, rfl, h⟩
  · simp only
    split_ifs
    · exact ⟨_, _, rfl, rfl⟩
    · exact ⟨_, _, rfl, rfl⟩
  · exact ⟨_, _, rfl, rfl⟩

theorem parse_full_some (full : a.addIndex = maxIpChunks) : (a.parse P c).isSome := by
  have same : chunk { a with valid := 2 } = { a with valid := 2 } := chunk_full full
  have stays : (chunk { a with valid := 2 }).addIndex = maxIpChunks := by rw [same]; exact full
  unfold parse
  simp only
  split_ifs <;> rfl

theorem parse_gapless {groups : List Text} {last : Text} {start : AddressParser}
    (room : (groups ++ [last]).length < maxIpChunks) (none' : lastEmpty (groups ++ [last]) = 0) :
    parse P { start.opened.stored groups with digitBuf := last } ']'.toUInt8 = none := by
  rw [List.length_append, List.length_singleton] at room
  have chunked : chunk { start.opened.stored groups with digitBuf := last, valid := 2 } =
      stored { start.opened with valid := 2 } (groups ++ [last]) :=
    chunk_stored { start.opened with valid := 2 } last (by omega)
  rw [parse_close (by exact Nat.one_ne_zero)]
  simp only [chunked]
  have few : (groups ++ [last]).length ≠ maxIpChunks := by
    rw [List.length_append, List.length_singleton]
    omega
  exact (if_neg few).trans (if_pos none')

theorem lastEmpty_eq_zero (g : Text) (gs : List Text) :
    lastEmpty (g :: gs) = 0 ↔ ∀ h ∈ gs, h ≠ [] := by
  induction gs using List.reverseRecOn with
  | nil => simp [lastEmpty, lastEmpty.go]
  | append_singleton gs h ih =>
    rw [← List.cons_append, lastEmpty_append]
    split
    · rename_i none'
      simp [none']
    · rename_i some'
      rw [ih]
      simp only [List.mem_append, List.mem_singleton]
      exact ⟨fun old x hx => hx.elim (old x) fun e => e ▸ some', fun all x hx => all x (.inl hx)⟩

theorem Tracks.step (h : Tracks t a) (P : Platform) (c : UInt8) :
    (∃ b status, a.parse P c = some (b, status) ∧ Tracks (t ++ [c]) b) ∨
      (a.parse P c = none ∧ Gapless (t ++ [c])) := by
  by_cases bracket : c = '['.toUInt8
  · subst bracket
    exact .inl ⟨_, _, parse_open, .opened (opens t a)⟩
  cases h with
  | invalid h =>
    obtain ⟨b, status, parsed, stays⟩ := parse_invalid (P := P) h bracket
    exact .inl ⟨b, status, parsed, .invalid stays⟩
  | full full =>
    obtain ⟨⟨b, status⟩, parsed⟩ :=
      Option.isSome_iff_exists.mp (parse_full_some (P := P) (c := c) full)
    exact .inl ⟨b, status, parsed, .full (parse_full full bracket parsed).1⟩
  | opened h =>
    obtain ⟨front, groups, last, start, rfl, room, digits, rfl⟩ := h
    have length : (groups ++ [last]).length = groups.length + 1 := by simp
    by_cases colon : c = ':'.toUInt8
    · subst colon
      refine .inl ⟨_, _, parse_colon, ?_⟩
      rw [chunk_stored start.opened last room]
      by_cases more : groups.length + 1 < maxIpChunks
      · refine .opened ⟨front, groups ++ [last], [], start, by simp, by rw [length]; exact more, ?_,
          rfl⟩
        intro g hg
        rcases List.mem_append.mp hg with old | new
        · exact digits g old
        · rw [List.mem_singleton.mp new]
          exact ⟨Nat.zero_le _, nofun⟩
      · refine .full ?_
        have : (start.opened.stored (groups ++ [last])).addIndex = groups.length + 1 := length
        omega
    by_cases digit : isHexDigit c
    · rw [parse_digit digit]
      split
      · rename_i short
        refine .inl ⟨_, _, rfl, .opened ⟨front, groups, last ++ [c], start, by simp, room, ?_, rfl⟩⟩
        intro g hg
        rcases List.mem_append.mp hg with old | new
        · exact digits g (List.mem_append_left _ old)
        · rw [List.mem_singleton.mp new]
          refine ⟨by rw [List.length_append]; exact short, fun d hd => ?_⟩
          rcases List.mem_append.mp hd with old | new
          · exact (digits last (by simp)).2 d old
          · exact List.mem_singleton.mp new ▸ digit
      · exact .inl ⟨_, _, rfl, .invalid rfl⟩
    by_cases close : c = ']'.toUInt8
    · subst close
      by_cases gap : (groups ++ [last]).length = maxIpChunks ∨ lastEmpty (groups ++ [last]) ≠ 0
      · obtain ⟨b, parsed, -, closed⟩ := close_stored (P := P) (a := start.opened) rfl last room gap
        exact .inl ⟨b, _, parsed, .full closed.addIndex⟩
      · rw [not_or, not_not] at gap
        refine .inr ⟨parse_gapless (by omega) gap.2, front, groups ++ [last], [], ?_, by simp,
          by omega, digits, ?_⟩
        · rw [groupsText_append]
          simp [groupsText]
        · obtain ⟨g, gs, e⟩ := List.exists_cons_of_ne_nil (l := groups ++ [last]) (by simp)
          rw [e] at gap ⊢
          exact (lastEmpty_eq_zero g gs).mp gap.2
    · rw [parse, if_neg bracket, if_neg colon, if_neg digit, if_neg close]
      simp only
      split_ifs
      · exact .inl ⟨_, _, rfl, .invalid rfl⟩
      · exact .inl ⟨_, _, rfl, .invalid rfl⟩
      · exact .inl ⟨_, _, rfl, .invalid rfl⟩

theorem feed_single (a : AddressParser) (c : UInt8) :
    feed P [c] a = (a.parse P c).map fun (b, status) => (b, [status]) := by
  rw [feed]
  cases a.parse P c <;> rfl

theorem feed_tracks (P : Platform) (t : Text) :
    (∃ a results, feed P t .init = some (a, results) ∧ Tracks t a) ∨
      (feed P t .init = none ∧ Gapless t) := by
  induction t using List.reverseRecOn with
  | nil => exact .inl ⟨.init, [], rfl, .invalid rfl⟩
  | append_singleton t c ih =>
    rcases ih with ⟨a, results, fed, tracks⟩ | ⟨fed, gapless⟩
    · rcases tracks.step P c with ⟨b, status, parsed, next⟩ | ⟨parsed, gapless⟩
      · refine .inl ⟨b, results ++ [status], ?_, next⟩
        simp only [feed_append, fed, feed_single, parsed, Option.bind_some, Option.map_some]
      · refine .inr ⟨?_, gapless⟩
        simp only [feed_append, fed, feed_single, parsed, Option.bind_some, Option.map_none]
    · refine .inr ⟨?_, gapless.append [c]⟩
      rw [feed_append, fed]
      rfl

theorem feed_none_append {u : Text} (h : ∀ b results, feed P t a = some (b, results) →
    feed P u b = none) : feed P (t ++ u) a = none := by
  rw [feed_append]
  cases fed : feed P t a with
  | none => rfl
  | some result =>
    obtain ⟨b, results⟩ := result
    simp only [Option.bind_some, h b results fed, Option.map_none]

theorem feed_gapless (h : Gapless t) (a : AddressParser) : feed P t a = none := by
  obtain ⟨front, groups, back, rfl, filled, room, digits, gapless⟩ := h
  obtain ⟨groups, g, rfl⟩ : ∃ init g, groups = init ++ [g] :=
    ⟨groups.dropLast, groups.getLast filled, (List.dropLast_append_getLast filled).symm⟩
  have shape : front ++ '['.toUInt8 :: (groupsText (groups ++ [g]) ++ ']'.toUInt8 :: back) =
      front ++ (('['.toUInt8 :: (groups.flatMap (· ++ [':'.toUInt8]) ++ g)) ++
        ([']'.toUInt8] ++ back)) := by
    rw [groupsText_append]
    simp [groupsText]
  rw [shape]
  refine feed_none_append fun d results _ => feed_none_append fun e later fed => ?_
  have opened : Reads P d ['['.toUInt8] (d.opened.stored []) := .single parse_open
  have stored := Reads.groups (P := P) (a := d.opened)
    (fun h hh => digits h (List.mem_append_left _ hh))
    (by rw [List.length_append, List.length_singleton] at room; omega)
  have last : Reads P (d.opened.stored groups) g { d.opened.stored groups with digitBuf := g } := by
    obtain ⟨short, hex⟩ := digits g (by simp)
    have := Reads.digits (P := P) (a := d.opened.stored groups) hex
      (by simpa [AddressParser.stored] using short)
    simpa [AddressParser.stored] using this
  have read := opened.append (stored.append last)
  have none' : lastEmpty (groups ++ [g]) = 0 := by
    obtain ⟨h, gs, e⟩ := List.exists_cons_of_ne_nil filled
    rw [e] at gapless ⊢
    exact (lastEmpty_eq_zero h gs).mpr gapless
  unfold Reads at read
  rw [List.singleton_append, fed] at read
  cases read
  refine feed_none_append fun f last fed => ?_
  rw [feed_single, parse_gapless room none'] at fed
  cases fed

theorem feed_none_iff (P : Platform) (t : Text) : feed P t .init = none ↔ Gapless t := by
  refine ⟨fun h => ?_, fun h => feed_gapless h .init⟩
  rcases feed_tracks P t with ⟨a, results, fed, -⟩ | ⟨-, gapless⟩
  · rw [h] at fed
    cases fed
  · exact gapless

end AddressParser

/-- The static variables of `getIPaddress` and what its pointers lead to, as they lie in
memory -/
structure AddressMemory where
  digitBuf : Vector UInt8 6
  digitBufIndex : UInt8
  addIndex : UInt8
  addExtendIndex : UInt8
  valid : UInt8
  address : Vector UInt16 8
  port : UInt16

/-- A store to an element of an array; none outside of it -/
def storeAt {α : Type} {n : Nat} (v : Vector α n) (i : Nat) (x : α) : Option (Vector α n) :=
  if h : i < n then some (v.set i x h) else none

namespace AddressMemory

def init : AddressMemory := ⟨Vector.replicate 6 0, 0, 0, 0, 0, Vector.replicate 8 0, 0⟩

variable (P : Platform) (m : AddressMemory)

/-- The characters that `axntoi` and `antoi` go through -/
def digits : Nat → Option Text
  | 0 => some []
  | n + 1 => do
    let front ← digits n
    let c ← m.digitBuf[n]?
    some (front ++ [c])

/-- The element behind the last chunk, with the index of an empty one noted -/
def chunk : Option AddressMemory :=
  if m.addIndex.toNat < maxIpChunks then do
    let digits ← m.digits m.digitBufIndex.toNat
    let address ← storeAt m.address m.addIndex.toNat (axntoi digits).toUInt16
    some { m with
      addExtendIndex := if m.digitBufIndex = 0 then m.addIndex else m.addExtendIndex
      address, addIndex := m.addIndex + 1, digitBufIndex := 0 }
  else some m

/-- `while(cnt2 >= addExtendIndex)`; `cnt2` is unsigned and wraps. Of nine turns in a row
one is outside of the address. -/
def moveUp (ext : UInt8) : Nat → UInt16 → Vector UInt16 8 → Option (Vector UInt16 8)
  | 0, _, _ => none
  | turns + 1, cnt2, address =>
    if ext.toNat ≤ cnt2.toNat then do
      let word ← address[cnt2.toNat]?
      let address ← storeAt address (cnt2.toNat + 1) word
      moveUp ext turns (cnt2 - 1) address
    else some address

/-- `while (addIndex < 7)` -/
def expandFrom : Nat → AddressMemory → Option AddressMemory
  | 0, _ => none
  | turns + 1, m =>
    if m.addIndex.toNat < 7 then do
      let address ← moveUp m.addExtendIndex (maxIpChunks + 1) m.addIndex.toUInt16 m.address
      expandFrom turns { m with address, addIndex := m.addIndex + 1 }
    else some m

/-- `getIPaddress` with an address and a port; none once an access leaves its array -/
def getIPaddress (c : UInt8) : Option (AddressMemory × AddressStatus) :=
  if c = '['.toUInt8 then
    some ({ m with
      digitBufIndex := 0, addIndex := 0, addExtendIndex := 0, port := 0
      address := Vector.replicate 8 0, valid := 1 }, .more)
  else if c = ':'.toUInt8 then m.chunk.map (·, .more)
  else if AddressParser.isHexDigit c then
    if m.digitBufIndex < 6 then do
      let digitBuf ← storeAt m.digitBuf m.digitBufIndex.toNat c
      some ({ m with digitBuf, digitBufIndex := m.digitBufIndex + 1 }, .more)
    else some ({ m with valid := 0 }, .invalid)
  else if c = ']'.toUInt8 then
    if m.valid = 0 then some (m, .invalid)
    else do
      let m ← { m with valid := 2 }.chunk
      if m.addIndex.toNat = maxIpChunks then some (m, .more)
      else do
        let m ← expandFrom (maxIpChunks + 1) { m with addIndex := m.addIndex - 1 }
        some ({ m with addIndex := 8 }, .more)
  else if c = slash ∨ c = '"'.toUInt8 then do
    -- `antoi` looks for a sign before it counts
    let _ ← m.digitBuf[0]?
    let digits ← m.digits m.digitBufIndex.toNat
    let m := { m with port := UInt16.ofInt (antoi P digits) }
    if m.valid = 2 then some ({ m with valid := 0 }, .done)
    else some ({ m with valid := 0 }, .invalid)
  else some ({ m with valid := 0 }, .invalid)

/-- Characters fed one by one; none once an access leaves its array -/
def feed : Text → AddressMemory → Option AddressMemory
  | [], m => some m
  | c :: rest, m => (m.getIPaddress P c).bind fun (m, _) => feed rest m

/-- What the memory holds for the parser -/
def view : AddressParser :=
  ⟨m.digitBuf.toList.take m.digitBufIndex.toNat, m.addIndex.toNat, m.addExtendIndex.toNat,
    m.valid.toNat, fun i => (m.address[i]?).getD 0, m.port⟩

/-- Indices inside their arrays, or just behind -/
structure Fits (m : AddressMemory) : Prop where
  digitBuf : m.digitBufIndex.toNat ≤ 6
  address : m.addIndex.toNat ≤ maxIpChunks

variable {P : Platform} {m : AddressMemory} {c : UInt8}

theorem digits_take {n : Nat} (h : n ≤ 6) : m.digits n = some (m.digitBuf.toList.take n) := by
  induction n with
  | zero => rfl
  | succ n ih =>
    have inside : n < m.digitBuf.toList.length := by simp; omega
    rw [digits, ih (by omega), List.take_succ_eq_append_getElem inside]
    simp [Vector.getElem?_eq_getElem (show n < 6 by omega)]

theorem Fits.digits (h : m.Fits) : m.digits m.digitBufIndex.toNat = some m.view.digitBuf :=
  digits_take h.digitBuf

theorem store_inside {α : Type} {n : Nat} (v : Vector α n) {i : Nat} (x : α) (h : i < n) :
    storeAt v i x = some (v.set i x h) := dif_pos h

/-- The words of an address, zero behind the last -/
def words (address : Vector UInt16 8) (i : Nat) : UInt16 := (address[i]?).getD 0

theorem words_set (address : Vector UInt16 8) {i : Nat} (x : UInt16) (h : i < 8) :
    words (address.set i x h) = Function.update (words address) i x := by
  funext j
  simp only [words, Function.update_apply, Vector.getElem?_set, eq_comm (a := j)]
  split
  · rename_i same
    subst same
    simp
  · rfl

theorem words_zero : words (Vector.replicate 8 0) = fun _ => 0 := by
  funext i
  simp only [words, Vector.getElem?_replicate]
  split <;> rfl

theorem take_set (v : Vector UInt8 6) {i : Nat} (x : UInt8) (h : i < 6) :
    (v.set i x h).toList.take (i + 1) = v.toList.take i ++ [x] := by
  have inside : i < (v.toList.set i x).length := by simpa using h
  rw [Vector.toList_set, List.take_succ_eq_append_getElem inside, List.getElem_set_self,
    List.take_set_of_le (le_refl i)]

theorem chunk_view (h : m.Fits) :
    ∃ m', m.chunk = some m' ∧ m'.view = m.view.chunk ∧ m'.Fits ∧ m'.addIndex ≠ 0 := by
  by_cases room : m.addIndex.toNat < maxIpChunks
  · have succ : (m.addIndex + 1).toNat = m.addIndex.toNat + 1 := by
      simp only [maxIpChunks] at room
      rw [UInt8.toNat_add]
      exact Nat.mod_eq_of_lt (by simp; omega)
    have empty : m.view.digitBuf = [] ↔ m.digitBufIndex = 0 := by
      simp [view, ← UInt8.toNat_inj]
    have inside : m.addIndex.toNat < 8 := room
    have chunked : m.chunk = some { m with
        addExtendIndex := if m.digitBufIndex = 0 then m.addIndex else m.addExtendIndex
        address := m.address.set m.addIndex.toNat (axntoi m.view.digitBuf).toUInt16 inside
        addIndex := m.addIndex + 1, digitBufIndex := 0 } := by
      rw [chunk, if_pos room, h.digits]
      simp only [Option.bind_eq_bind, Option.bind_some, store_inside _ _ inside]
    have spec : m.view.chunk = { m.view with
        addExtendIndex := if m.view.digitBuf = [] then m.view.addIndex else m.view.addExtendIndex
        address := Function.update m.view.address m.view.addIndex (axntoi m.view.digitBuf).toUInt16
        addIndex := m.view.addIndex + 1, digitBuf := [] } := if_pos room
    have address := words_set m.address (axntoi m.view.digitBuf).toUInt16 inside
    refine ⟨_, chunked, ?_, ⟨Nat.zero_le _, by rw [succ]; exact room⟩, fun e => ?_⟩
    · rw [spec]
      simp only [empty]
      unfold view at address ⊢
      simp only [succ]
      congr 1
      split <;> rfl
    · have zero : m.addIndex + 1 = 0 := e
      rw [zero] at succ
      cases succ
  · have stays : m.view.chunk = m.view := if_neg room
    refine ⟨m, by rw [chunk, if_neg room], stays.symm, h, fun e => room ?_⟩
    rw [e]
    decide

theorem moveUp_some {ext : UInt8} (positive : ext ≠ 0) {turns : Nat} {cnt2 : UInt16}
    (inside : cnt2.toNat < 7) (enough : cnt2.toNat + 1 < turns) (address : Vector UInt16 8) :
    ∃ address', moveUp ext turns cnt2 address = some address' ∧
      words address' = fun i =>
        if ext.toNat < i ∧ i ≤ cnt2.toNat + 1 then words address (i - 1) else words address i := by
  have first : 0 < ext.toNat := Nat.pos_of_ne_zero fun e => positive (UInt8.toNat_inj.mp e)
  induction turns generalizing cnt2 address with
  | zero => cases enough
  | succ turns ih =>
    by_cases turn : ext.toNat ≤ cnt2.toNat
    · have pred : (cnt2 - 1).toNat = cnt2.toNat - 1 :=
        UInt16.toNat_sub_of_le _ _ (UInt16.le_iff_toNat_le.mpr (by simp; omega))
      have here : cnt2.toNat < 8 := by omega
      have behind : cnt2.toNat + 1 < 8 := by omega
      have inside' : (cnt2 - 1).toNat < 7 := by omega
      obtain ⟨address', moved, same⟩ := ih inside' (by omega)
        (address.set (cnt2.toNat + 1) address[cnt2.toNat] behind)
      refine ⟨address', ?_, ?_⟩
      · rw [moveUp, if_pos turn]
        simp only [Vector.getElem?_eq_getElem here, store_inside _ _ behind, Option.bind_eq_bind,
          Option.bind_some]
        exact moved
      · have word : address[cnt2.toNat] = words address cnt2.toNat := by
          simp [words, Vector.getElem?_eq_getElem here]
        rw [same, words_set, word, pred]
        funext i
        simp only [Function.update_apply]
        split_ifs <;> first | rfl | (congr 1; omega)
    · refine ⟨address, by rw [moveUp, if_neg turn], ?_⟩
      funext i
      rw [if_neg (by omega)]

theorem moveUp_none (turns : Nat) (cnt2 : UInt16) (address : Vector UInt16 8) :
    moveUp 0 turns cnt2 address = none := by
  induction turns generalizing cnt2 address with
  | zero => rfl
  | succ turns ih =>
    have turn : (0 : UInt8).toNat ≤ cnt2.toNat := Nat.zero_le _
    rw [moveUp, if_pos turn]
    simp only [ih, Option.bind_eq_bind]
    cases address[cnt2.toNat]? with
    | none => rfl
    | some word => exact Option.bind_fun_none _

theorem expandFrom_some (positive : m.addExtendIndex ≠ 0) {turns : Nat}
    (enough : 7 - m.addIndex.toNat < turns) (inside : m.addIndex.toNat ≤ 7) {a : AddressParser}
    (ext : a.addExtendIndex = m.addExtendIndex.toNat) (same : a.address = words m.address) :
    ∃ address, expandFrom turns m = some { m with address, addIndex := 7 } ∧
      words address = ((List.range (7 - m.addIndex.toNat)).foldl
        (fun b j => b.shiftUp (m.addIndex.toNat + j)) a).address := by
  induction turns generalizing m a with
  | zero => cases enough
  | succ turns ih =>
    by_cases turn : m.addIndex.toNat < 7
    · have succ : (m.addIndex + 1).toNat = m.addIndex.toNat + 1 := by
        rw [UInt8.toNat_add]
        exact Nat.mod_eq_of_lt (by simp; omega)
      have wide : m.addIndex.toUInt16.toNat = m.addIndex.toNat := UInt8.toNat_toUInt16 _
      have below : m.addIndex.toUInt16.toNat < 7 := by rw [wide]; exact turn
      have turns' : m.addIndex.toUInt16.toNat + 1 < maxIpChunks + 1 := by
        rw [maxIpChunks]
        omega
      obtain ⟨moved, move, shifted⟩ := moveUp_some positive below turns' m.address
      rw [wide] at shifted
      have shift : (a.shiftUp m.addIndex.toNat).address = words moved := by
        rw [shifted, AddressParser.shiftUp, ext, same]
      obtain ⟨address, expanded, fold⟩ := ih
        (m := { m with address := moved, addIndex := m.addIndex + 1 })
        positive (by rw [succ]; omega) (by rw [succ]; exact turn) (a := a.shiftUp m.addIndex.toNat)
        ext shift
      refine ⟨address, ?_, ?_⟩
      · rw [expandFrom, if_pos turn, move]
        exact expanded
      · rw [fold, succ, show 7 - m.addIndex.toNat = 7 - (m.addIndex.toNat + 1) + 1 by omega,
          List.range_succ_eq_map, List.foldl_cons, List.foldl_map]
        simp only [Nat.add_zero, Nat.succ_eq_add_one, Nat.add_assoc, Nat.add_comm 1]
    · have last : m.addIndex = 7 := UInt8.toNat_inj.mp (by simp; omega)
      refine ⟨m.address, ?_, ?_⟩
      · rw [expandFrom, if_neg turn, ← last]
      · rw [last]
        exact same.symm

theorem expandFrom_none (start : m.addExtendIndex = 0) (room : m.addIndex.toNat < 7) (turns : Nat) :
    expandFrom turns m = none := by
  cases turns with
  | zero => rfl
  | succ turns =>
    rw [expandFrom, if_pos room, start, moveUp_none]
    rfl

/-- What the memory holds behind a character is what the parser says, or an access has left
its array where the parser does not return. -/
def Refines :
    Option (AddressMemory × AddressStatus) → Option (AddressParser × AddressStatus) → Prop :=
  Option.Rel fun x y => x.1.view = y.1 ∧ x.2 = y.2 ∧ x.1.Fits

theorem close_refines (h : m.Fits) :
    Refines (m.getIPaddress P ']'.toUInt8) (m.view.parse P ']'.toUInt8) := by
  have invalid : m.view.valid = 0 ↔ m.valid = 0 := UInt8.toNat_inj (b := 0)
  by_cases valid : m.valid = 0
  · have left : m.getIPaddress P ']'.toUInt8 = some (m, .invalid) := by
      simp only [getIPaddress, valid]
      rfl
    have right : m.view.parse P ']'.toUInt8 = some (m.view, .invalid) := by
      rw [AddressParser.parse]
      simp only [invalid.mpr valid]
      rfl
    rw [left, right]
    exact .some ⟨rfl, rfl, h⟩
  have right := AddressParser.parse_close (P := P) (a := m.view) fun e => valid (invalid.mp e)
  obtain ⟨b, chunked, shown, fits, some'⟩ := chunk_view (m := { m with valid := 2 }) ⟨h.1, h.2⟩
  have left : m.getIPaddress P ']'.toUInt8 =
      if b.addIndex.toNat = maxIpChunks then some (b, .more)
      else (expandFrom (maxIpChunks + 1) { b with addIndex := b.addIndex - 1 }).bind fun m =>
        some ({ m with addIndex := 8 }, .more) := by
    rw [getIPaddress, if_neg (by decide), if_neg (by decide), if_neg (by decide), if_pos rfl,
      if_neg valid, chunked]
    rfl
  have same : AddressParser.chunk { m.view with valid := 2 } = b.view := shown.symm
  rw [left, right, same]
  by_cases full : b.addIndex.toNat = maxIpChunks
  · have full' : b.view.addIndex = maxIpChunks := full
    simp only [if_pos full, full', if_true]
    exact .some ⟨rfl, rfl, fits⟩
  have full' : b.view.addIndex ≠ maxIpChunks := full
  have fewer : b.addIndex.toNat < 8 := Nat.lt_of_le_of_ne fits.address full
  have one : 1 ≤ b.addIndex.toNat := Nat.pos_of_ne_zero fun e => some' (UInt8.toNat_inj.mp e)
  have pred : (b.addIndex - 1).toNat = b.addIndex.toNat - 1 :=
    UInt8.toNat_sub_of_le _ _ (UInt8.le_iff_toNat_le.mpr one)
  by_cases start : b.addExtendIndex = 0
  · have start' : b.view.addExtendIndex = 0 := UInt8.toNat_inj.mpr start
    have none' := expandFrom_none (m := { b with addIndex := b.addIndex - 1 }) start
      (by rw [pred]; omega) (maxIpChunks + 1)
    simp only [if_neg full, none', if_neg full', start', if_true]
    exact .none
  · have start' : b.view.addExtendIndex ≠ 0 := fun e => start (UInt8.toNat_inj.mp e)
    have enough : 7 - (b.addIndex - 1).toNat < maxIpChunks + 1 := by
      rw [pred, maxIpChunks]
      omega
    obtain ⟨address, expanded, fold⟩ := expandFrom_some (m := { b with addIndex := b.addIndex - 1 })
      start enough (by rw [pred]; omega) (a := b.view) rfl rfl
    simp only [if_neg full', if_neg start']
    rw [if_neg full, expanded]
    refine .some ⟨?_, rfl, fits.1, le_refl _⟩
    rw [pred, show 7 - (b.addIndex.toNat - 1) = maxIpChunks - b.view.addIndex by
      simp only [view, maxIpChunks]; omega] at fold
    have expand : b.view.expand =
        { b.view with address := words address, addIndex := maxIpChunks } := by
      obtain ⟨moved, frame⟩ := AddressParser.shiftUp_frame b.view (b.addIndex.toNat - 1)
        (maxIpChunks - b.view.addIndex)
      have top : b.view.addIndex - 1 = b.addIndex.toNat - 1 := rfl
      rw [AddressParser.expand, top, fold, frame]
    rw [expand]
    rfl

theorem getIPaddress_refines (h : m.Fits) (c : UInt8) :
    Refines (m.getIPaddress P c) (m.view.parse P c) := by
  by_cases close : c = ']'.toUInt8
  · exact close ▸ close_refines h
  unfold getIPaddress AddressParser.parse
  by_cases bracket : c = '['.toUInt8
  · simp only [if_pos bracket]
    refine .some ⟨?_, rfl, Nat.zero_le _, Nat.zero_le _⟩
    exact congrArg (AddressParser.mk _ _ _ _ · _) words_zero
  by_cases colon : c = ':'.toUInt8
  · obtain ⟨m', chunked, shown, fits, -⟩ := chunk_view h
    simp only [if_neg bracket, if_pos colon, chunked]
    exact .some ⟨shown, rfl, fits⟩
  by_cases digit : AddressParser.isHexDigit c
  · simp only [if_neg bracket, if_neg colon, if_pos digit]
    have count : m.view.digitBuf.length = m.digitBufIndex.toNat := by
      simp [view, h.digitBuf]
    by_cases room : m.digitBufIndex < 6
    · have inside : m.digitBufIndex.toNat < 6 := room
      have room' : m.view.digitBuf.length < 6 := count ▸ inside
      have succ : (m.digitBufIndex + 1).toNat = m.digitBufIndex.toNat + 1 := by
        rw [UInt8.toNat_add]
        exact Nat.mod_eq_of_lt (by simp; omega)
      rw [if_pos room, if_pos room', store_inside _ _ inside]
      refine .some ⟨?_, rfl, by rw [succ]; exact inside, h.2⟩
      simp only [view, succ, take_set]
    · have full : ¬ m.view.digitBuf.length < 6 := count ▸ fun room' => room room'
      rw [if_neg room, if_neg full]
      exact .some ⟨rfl, rfl, h.1, h.2⟩
  simp only [if_neg bracket, if_neg colon, if_neg digit, if_neg close]
  by_cases stop : c = slash ∨ c = '"'.toUInt8
  · have first : m.digitBuf[0]? = some m.digitBuf[0] := Vector.getElem?_eq_getElem (by decide)
    have two : m.view.valid = 2 ↔ m.valid = 2 := UInt8.toNat_inj (b := 2)
    simp only [if_pos stop, first, h.digits, two, Option.bind_eq_bind, Option.bind_some]
    split
    · exact .some ⟨rfl, rfl, h.1, h.2⟩
    · exact .some ⟨rfl, rfl, h.1, h.2⟩
  · simp only [if_neg stop]
    exact .some ⟨rfl, rfl, h.1, h.2⟩

theorem feed_view (h : m.Fits) (text : Text) :
    (m.feed P text).isSome ↔ AddressParser.feed P text m.view ≠ none := by
  induction text generalizing m with
  | nil => simp [feed, AddressParser.feed]
  | cons c rest ih =>
    have step := getIPaddress_refines (P := P) h c
    rw [feed, AddressParser.feed]
    generalize m.getIPaddress P c = memory, m.view.parse P c = parsed at step
    cases step with
    | none => simp
    | @some x y same =>
      obtain ⟨shown, -, fits⟩ := same
      rw [Option.bind_some, ih fits, shown]
      simp

/-- From the start every call returns and every access is inside its array unless a gapless
address is closed. -/
theorem feed_isSome_iff (P : Platform) (text : Text) :
    (init.feed P text).isSome ↔ ¬ Gapless text := by
  have start : init.view = AddressParser.init := congrArg (AddressParser.mk _ _ _ _ · _) words_zero
  rw [feed_view ⟨Nat.zero_le _, Nat.zero_le _⟩, start, ← AddressParser.feed_none_iff P]

/-- `[1:2]` -/
theorem feed_two_groups : ¬ ∀ (P : Platform) (text : Text), (init.feed P text).isSome := by
  intro h
  have lost : (init.feed .plain (chars ['[', '1', ':', '2', ']'])).isSome = false := by
    decide +kernel
  exact absurd (h .plain _) (by rw [lost]; exact Bool.false_ne_true)

end AddressMemory
end EmmaNode
