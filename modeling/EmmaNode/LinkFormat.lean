import Mathlib.Data.List.TakeWhile
import EmmaNode.Blockwise
import EmmaNode.RoundTrip
import EmmaNode.WellKnown

/-! The document of `.well-known/core`. Each call of the handler writes it from the start and
keeps what follows the offset. A machine that writes some text one character at a time leaves,
stopped like that, a piece of the text. -/

namespace EmmaNode

/-- `</path>;attributes` -/
def linkEntry (path description : Text) : Text :=
  chars ['<', '/'] ++ path ++ chars ['>', ';'] ++ description

def Tree.linkDocument (t : Tree) (visits : List (Root × Option Nat)) : Text :=
  (chars [',']).intercalate (visits.map fun v => linkEntry (t.fullPath v) v.1.description)

theorem intercalate_cons (separator first : Text) (rest : List Text) :
    separator.intercalate (first :: rest) = first ++ rest.flatMap (separator ++ ·) := by
  induction rest generalizing first with
  | nil => simp [List.intercalate]
  | cons second rest ih =>
    have tail := ih second
    simp only [List.intercalate, List.intersperse_cons_cons, List.flatten_cons] at tail ⊢
    rw [tail, List.flatMap_cons, List.append_assoc]

theorem length_intercalate (separator : UInt8) (texts : List Text) :
    ([separator].intercalate texts).length = (texts.map (·.length + 1)).sum - 1 := by
  cases texts with
  | nil => rfl
  | cons first rest =>
    rw [intercalate_cons, List.length_append, List.length_flatMap, List.map_cons, List.sum_cons]
    simp only [List.length_append, List.length_singleton, Nat.add_comm]
    omega

theorem emmaGetRoot_names (root : Root) (names : List Text) :
    emmaGetRoot (root.text names) = some root := by
  cases names with
  | nil => cases root <;> decide
  | cons name names => exact (emmaGetRoot_text root _).1

theorem emmaGetRoot_fullPath (t : Tree) (v : Root × Option Nat) :
    emmaGetRoot (t.fullPath v) = some v.1 := emmaGetRoot_names v.1 _

namespace WellKnown
variable {t : Tree} {w w' : WellKnown} {p o n fuel : Nat} {d written : Text}

/-- A turn that writes `cs`, whatever has been written before it -/
structure Turn (t : Tree) (w w' : WellKnown) (cs : Text) : Prop where
  running : w.state ≠ .finish
  step : ∀ out globalIndex, step t { w with out, globalIndex } =
    { w' with out := out ++ cs, globalIndex := globalIndex + cs.length }
  one : cs.length ≤ 1
  ending : w'.state = .finish → cs = []

inductive Emits (t : Tree) : Nat → WellKnown → Text → Prop
  | done {w : WellKnown} : w.state = .finish → Emits t 0 w []
  | turn {n : Nat} {w w' : WellKnown} {cs d : Text} : Turn t w w' cs → Emits t n w' d →
      Emits t (n + 1) w (cs ++ d)

/-- What the buffer holds of what has been written -/
structure Kept (p o : Nat) (written : Text) (w : WellKnown) (out : Text) : Prop where
  behind : o < written.length → out = written.drop o
  before : written.length ≤ o → w.state = .finish → out = []
  room : out.length ≤ p
  ended : w.state = .finish → out.length < p

theorem Kept.turn {out cs : Text} (k : Kept p o written w out) (positive : 0 < p)
    (more : out.length < p ∨ written.length ≤ o) (tn : Turn t w w' cs) :
    Kept p o (written ++ cs) w' ((if written.length ≤ o then [] else out) ++ cs) := by
  have one := tn.one
  have ending := fun e => congrArg List.length (tn.ending e)
  by_cases early : written.length ≤ o
  · rw [if_pos early, List.nil_append]
    refine ⟨fun h => ?_, fun _ => tn.ending, by omega, fun e => ?_⟩
    · rw [List.length_append] at h
      have here : o = written.length := by omega
      rw [here, List.drop_append_of_le_length (Nat.le_refl _), List.drop_length, List.nil_append]
    · rw [ending e]
      exact positive
  · rw [if_neg early]
    have room : out.length < p := by omega
    refine ⟨fun _ => ?_, fun h => ?_, ?_, fun e => ?_⟩
    · rw [k.behind (Nat.not_le.mp early), List.drop_append_of_le_length (by omega)]
    · rw [List.length_append] at h
      omega
    · rw [List.length_append]
      omega
    · rw [List.length_append, ending e]
      exact room

theorem run_spec {out : Text} (e : Emits t n w d) (enough : n ≤ fuel) (positive : 0 < p)
    (k : Kept p o written w out) :
    let r := run t p o fuel { w with out, globalIndex := written.length }
    r.out = ((written ++ d).drop o).take p ∧
      (r.state = .finish ↔ ((written ++ d).drop o).length < p) := by
  induction e generalizing fuel written out with
  | @done w ended =>
    have stay : run t p o fuel { w with out, globalIndex := written.length } =
        { w with out, globalIndex := written.length } := by
      cases fuel <;> simp [run, ended]
    have all : out = written.drop o := by
      by_cases late : o < written.length
      · exact k.behind late
      · rw [k.before (Nat.not_lt.mp late) ended, List.drop_of_length_le (Nat.not_lt.mp late)]
    have short := k.ended ended
    rw [stay, List.append_nil, ← all]
    exact ⟨(List.take_of_length_le (Nat.le_of_lt short)).symm, by simpa [ended]⟩
  | @turn n w w' cs d tn _ ih =>
    obtain ⟨fuel, rfl⟩ : ∃ m, fuel = m + 1 := ⟨fuel - 1, by omega⟩
    by_cases more : out.length < p ∨ written.length ≤ o
    · have again := @ih fuel _ _ (by omega) (k.turn positive more tn)
      have cleared : (if (written.length : Int) ≤ (o : Int) then
            { { w with out, globalIndex := written.length } with out := [] }
          else { w with out, globalIndex := written.length }) =
          { w with out := if written.length ≤ o then [] else out,
                   globalIndex := written.length } := by
        by_cases early : written.length ≤ o
        · rw [if_pos (by exact_mod_cast early), if_pos early]
        · rw [if_neg (by exact_mod_cast early), if_neg early]
      have go : (out.length < p ∨ (written.length : Int) ≤ (o : Int)) ∧ w.state ≠ .finish :=
        ⟨by exact_mod_cast more, tn.running⟩
      rw [List.length_append] at again
      rw [run, if_pos go]
      simp only [cleared, tn.step]
      rw [List.append_assoc] at again
      exact again
    · have late : o < written.length := by omega
      have full : out.length = p := Nat.le_antisymm k.room (by omega)
      have stay : run t p o (fuel + 1) { w with out, globalIndex := written.length } =
          { w with out, globalIndex := written.length } := by
        rw [run, if_neg]
        intro go
        exact more (by exact_mod_cast go.1)
      have front : (written ++ (cs ++ d)).drop o = out ++ (cs ++ d) := by
        rw [List.drop_append_of_le_length (Nat.le_of_lt late), ← k.behind late]
      rw [stay, front, List.take_append_of_le_length (Nat.le_of_eq full.symm),
        List.take_of_length_le (Nat.le_of_eq full)]
      refine ⟨rfl, ?_⟩
      simp only [tn.running, List.length_append, false_iff]
      omega

variable {name text : Text} {attributes : Option Text} {it : Iter} {onward : WellKnownState}

theorem emits_copy (state : WellKnownState) {i : Nat} (inside : i ≤ text.length)
    (copies : ∀ i out g, step t ⟨state, name, attributes, out, i, g, it⟩ =
      copy ⟨state, name, attributes, out, i, g, it⟩ text onward)
    (running : state ≠ .finish)
    (e : Emits t n ⟨onward, name, attributes, [], 0, 0, it⟩ d) :
    Emits t (n + (text.length - i) + 1) ⟨state, name, attributes, [], i, 0, it⟩
      (text.drop i ++ d) := by
  generalize left : text.length - i = k
  induction k generalizing i with
  | zero =>
    have ended : text[i]? = none := List.getElem?_eq_none (by omega)
    have last : Turn t ⟨state, name, attributes, [], i, 0, it⟩
        ⟨onward, name, attributes, [], 0, 0, it⟩ [] :=
      ⟨running, fun out g => by simp [copies, copy, ended], by simp, fun _ => rfl⟩
    rw [List.drop_of_length_le (by omega)]
    exact .turn last e
  | succ k ih =>
    have here : text[i]? = some text[i] := List.getElem?_eq_getElem (by omega)
    have one : Turn t ⟨state, name, attributes, [], i, 0, it⟩
        ⟨state, name, attributes, [], i + 1, 0, it⟩ [text[i]] :=
      ⟨running, fun out g => by simp [copies, copy, here, write], by simp,
        fun e => absurd e running⟩
    have rest := Emits.turn one (@ih (i + 1) (by omega) (by omega))
    rw [List.drop_eq_getElem_cons (by omega)]
    exact rest

theorem emits_entry {root : Root} (hroot : emmaGetRoot name = some root)
    (e : Emits t n ⟨.next, name, some root.description, [], 0, 0, it⟩ d) :
    ∃ m ≤ n + (name.length + root.description.length + 6),
      Emits t m ⟨.ores, name, attributes, [], 0, 0, it⟩ (linkEntry name root.description ++ d) := by
  have described := emits_copy .attr (Nat.zero_le root.description.length) (fun _ _ _ => rfl)
    (by simp) e
  have seco : Turn t ⟨.seco, name, some root.description, [], 0, 0, it⟩
      ⟨.attr, name, some root.description, [], 0, 0, it⟩ [';'.toUInt8] :=
    ⟨by simp, fun _ _ => rfl, by simp, by simp⟩
  have cres : Turn t ⟨.cres, name, attributes, [], 0, 0, it⟩
      ⟨.seco, name, some root.description, [], 0, 0, it⟩ ['>'.toUInt8] :=
    ⟨by simp, fun _ _ => by simp [step, write, hroot], by simp, by simp⟩
  have named := emits_copy .name (Nat.zero_le name.length) (fun _ _ _ => rfl) (by simp)
    (.turn cres (.turn seco described))
  have slsh : Turn t ⟨.slsh, name, attributes, [], 0, 0, it⟩ ⟨.name, name, attributes, [], 0, 0, it⟩
      ['/'.toUInt8] := ⟨by simp, fun _ _ => rfl, by simp, by simp⟩
  have ores : Turn t ⟨.ores, name, attributes, [], 0, 0, it⟩ ⟨.slsh, name, attributes, [], 0, 0, it⟩
      ['<'.toUInt8] := ⟨by simp, fun _ _ => rfl, by simp, by simp⟩
  have all := Emits.turn ores (.turn slsh named)
  refine ⟨n + (root.description.length - 0) + 1 + 1 + 1 + (name.length - 0) + 1 + 1 + 1,
    by omega, ?_⟩
  simpa [linkEntry, chars] using all

theorem length_description (root : Root) : root.description.length ≤ 32 := by
  cases root <;> decide

theorem emits_names {visits : List (Root × Option Nat)}
    (names : Iter.Hands t emmaMaxUriSize it (visits.map t.fullPath))
    (fits : ∀ v ∈ visits, (t.fullPath v).length ≤ emmaMaxUriSize) :
    ∃ m ≤ visits.length * (emmaMaxUriSize + 40) + 1,
      Emits t m ⟨.next, name, attributes, [], 0, 0, it⟩
        (visits.flatMap fun v => chars [','] ++ linkEntry (t.fullPath v) v.1.description) := by
  induction visits generalizing it name attributes with
  | nil =>
    cases names with
    | stop none' =>
      have over' : Turn t ⟨.next, name, attributes, [], 0, 0, it⟩
          ⟨.finish, [], attributes, [], 0, 0, (it.getNext t emmaMaxUriSize).2⟩ [] :=
        ⟨by simp, fun out g => by simp [step, Iter.get, none'], by simp, fun _ => rfl⟩
      exact ⟨1, by simp, .turn over' (.done rfl)⟩
  | cons v visits ih =>
    generalize hn : (v :: visits).map t.fullPath = all at names
    cases names with
    | stop => cases hn
    | name some' rest =>
      obtain ⟨here, later⟩ := List.cons.inj hn
      rw [← later] at rest
      obtain ⟨m, hm, others⟩ := @ih (t.fullPath v) (some v.1.description) _ rest
        fun v' hv' => fits v' (.tail _ hv')
      obtain ⟨k, hk, entry⟩ : ∃ k ≤ _, Emits t k ⟨.ores, t.fullPath v, attributes, [], 0, 0, _⟩ _ :=
        emits_entry (emmaGetRoot_fullPath t v) others
      have comma : Turn t ⟨.comma, t.fullPath v, attributes, [], 0, 0,
          (it.getNext t emmaMaxUriSize).2⟩ ⟨.ores, t.fullPath v, attributes, [], 0, 0,
          (it.getNext t emmaMaxUriSize).2⟩ [','.toUInt8] :=
        ⟨by simp, fun _ _ => rfl, by simp, by simp⟩
      have next : Turn t ⟨.next, name, attributes, [], 0, 0, it⟩
          ⟨.comma, t.fullPath v, attributes, [], 0, 0, (it.getNext t emmaMaxUriSize).2⟩ [] :=
        ⟨by simp, fun out g => by simp [step, Iter.get, ← here, Iter.fullPath_ne], by simp,
          by simp⟩
      refine ⟨k + 1 + 1, ?_, ?_⟩
      · have short := fits v (.head _)
        have description := length_description v.1
        simp only [emmaMaxUriSize, List.length_cons] at *
        omega
      · have all := Emits.turn next (.turn comma entry)
        rw [List.flatMap_cons]
        simpa [chars] using all

theorem run_init {visits : List (Root × Option Nat)} (it : Iter) (positive : 0 < p)
    (names : Iter.Hands t emmaMaxUriSize (it.begin t .agent) (visits.map t.fullPath))
    (fits : ∀ v ∈ visits, (t.fullPath v).length ≤ emmaMaxUriSize) (few : visits.length < maxNames) :
    let r := run t p o maxTurns (.init it)
    r.out = ((t.linkDocument visits).drop o).take p ∧
      (r.state = .finish ↔ ((t.linkDocument visits).drop o).length < p) := by
  obtain ⟨n, hn, e⟩ : ∃ n < maxTurns, Emits t n { (WellKnown.init it).step t with out := [] }
      (t.linkDocument visits) := by
    cases visits with
    | nil =>
      cases names with
      | stop none' =>
        refine ⟨0, by decide, ?_⟩
        have := none'
        exact .done (by simp [step, init, Iter.get, none'])
    | cons v visits =>
      generalize hall : (v :: visits).map t.fullPath = all at names
      cases names with
      | stop => cases hall
      | name some' rest =>
        obtain ⟨here, later⟩ := List.cons.inj hall
        rw [← later] at rest
        obtain ⟨m, hm, others⟩ := @emits_names _ (t.fullPath v) (some v.1.description) _ _ rest
          fun v' hv' => fits v' (.tail _ hv')
        obtain ⟨k, hk, entry⟩ : ∃ k ≤ _, Emits t k ⟨.ores, t.fullPath v, none, [], 0, 0, _⟩ _ :=
          emits_entry (emmaGetRoot_fullPath t v) others
        have start : { (WellKnown.init it).step t with out := [] } =
            ⟨.ores, t.fullPath v, none, [], 0, 0, ((it.begin t .agent).getNext t
              emmaMaxUriSize).2⟩ := by
          simp [step, init, Iter.get, ← here, Iter.fullPath_ne]
        have document : t.linkDocument (v :: visits) = linkEntry (t.fullPath v) v.1.description ++
            visits.flatMap fun v => chars [','] ++ linkEntry (t.fullPath v) v.1.description := by
          rw [Tree.linkDocument, List.map_cons, intercalate_cons, List.flatMap_map]
        rw [start, document]
        refine ⟨k, ?_, entry⟩
        have short := fits v (.head _)
        have description := length_description v.1
        simp only [maxTurns, emmaMaxUriSize, maxNames, emmaMaxResources, Root.all,
          List.length_cons, List.length_nil] at *
        omega
  have kept : Kept p o [] { (WellKnown.init it).step t with out := [] } [] :=
    ⟨fun h => absurd h (Nat.not_lt_zero o), fun _ _ => rfl, Nat.zero_le p, fun _ => positive⟩
  have rest := run_spec e (Nat.le_pred_of_lt hn) positive kept
  have first : run t p o maxTurns (.init it) = run t p o (maxTurns - 1)
      { { (WellKnown.init it).step t with out := [] } with
          out := [], globalIndex := ([] : Text).length } := by
    have begun : (if ((WellKnown.init it).globalIndex : Int) ≤ (o : Int) then
        { WellKnown.init it with out := [] } else .init it) = .init it := by
      split <;> rfl
    have go : ((WellKnown.init it).out.length < p ∨
        ((WellKnown.init it).globalIndex : Int) ≤ (o : Int)) ∧
        (WellKnown.init it).state ≠ .finish := ⟨.inl positive, by simp [init]⟩
    rw [show maxTurns = maxTurns - 1 + 1 from rfl, run, if_pos go]
    rw [begun]
    rfl
  rw [first]
  exact rest

end WellKnown
def Reply.bytes (r : Reply) : Text :=
  (r.payload.map fun payload => payload.bytes.take payload.returned.toNat).getD []

/-- The replies to a call with an offset, a call with the offset it has returned and so on, up to
the one that returns -1. Between the calls anything may happen that leaves the store alone. -/
inductive Store.CoreReplies (st : Store) (preferredSize : Nat) : Int → List Reply → Prop
  | last {s : State} {offset : Int} : s.store = st →
      (s.emmaWellKnownCoreHandler preferredSize offset).2.offset = -1 →
      CoreReplies st preferredSize offset [(s.emmaWellKnownCoreHandler preferredSize offset).2]
  | more {s : State} {offset : Int} {rest : List Reply} : s.store = st →
      (s.emmaWellKnownCoreHandler preferredSize offset).2.offset ≠ -1 →
      CoreReplies st preferredSize
        (s.emmaWellKnownCoreHandler preferredSize offset).2.offset rest →
      CoreReplies st preferredSize offset
        ((s.emmaWellKnownCoreHandler preferredSize offset).2 :: rest)

/-- A transfer of `.well-known/core` ends, and is one of the pieces of a document. -/
structure Store.Serves (st : Store) (preferredSize : Nat) (document : Text) : Prop where
  ends : ∃ replies, st.CoreReplies preferredSize 0 replies
  pieces : ∀ replies, st.CoreReplies preferredSize 0 replies →
    Pieces preferredSize document (replies.map Reply.bytes)
  success : ∀ replies, st.CoreReplies preferredSize 0 replies →
    ∀ r ∈ replies, r.status = some .ok

namespace Store
variable {st : Store} {p : Nat} {d : Text}

def corePiece (p : Nat) (d : Text) (o : Nat) : Reply :=
  if d.drop o = [] then
    ⟨some .badOption, false, none, some ⟨chars ['B', 'l', 'o', 'c', 'k', 'O', 'u', 't', 'O', 'f',
      'S', 'c', 'o', 'p', 'e'], 15⟩, -1⟩
  else ⟨some .ok, false, none, some ⟨(d.drop o).take p, ((d.drop o).take p).length⟩,
    if (d.drop o).length < p then -1 else (o + p : Nat)⟩

/-- The store's handler writes the document `d`. -/
def Writes (st : Store) (p : Nat) (d : Text) : Prop :=
  ∀ (s : State) (o : Nat), s.store = st → (s.emmaWellKnownCoreHandler p o).2 = corePiece p d o

theorem writes_document {visits : List (Root × Option Nat)} (positive : 0 < p)
    (names : ∀ it : Iter, Iter.Hands st.tree emmaMaxUriSize (it.begin st.tree .agent)
      (visits.map st.tree.fullPath))
    (fits : ∀ v ∈ visits, (st.tree.fullPath v).length ≤ emmaMaxUriSize)
    (few : visits.length < maxNames) : st.Writes p (st.tree.linkDocument visits) := by
  rintro s o rfl
  obtain ⟨out, finished⟩ := WellKnown.run_init (o := o) s.reader.iter positive
    (names s.reader.iter) fits few
  rw [State.emmaWellKnownCoreHandler, corePiece]
  generalize WellKnown.run s.store.tree p o WellKnown.maxTurns (.init s.reader.iter) = w
    at out finished
  generalize s.store.tree.linkDocument visits = d at out finished
  by_cases nothing : d.drop o = []
  · have empty : w.out = [] := by rw [out, nothing, List.take_nil]
    have ended : w.state = .finish := finished.mpr (by rw [nothing]; exact positive)
    simp only [if_pos nothing, empty, ended, if_true]
  · have some' : w.out ≠ [] := by
      rw [out]
      exact fun e => nothing ((List.take_eq_nil_iff.mp e).resolve_left (Nat.ne_of_gt positive))
    have size : ¬(d.drop o).length < p → w.out.length = p := fun h => by
      rw [out, List.length_take]
      omega
    simp only [if_neg nothing, if_neg some', finished]
    rw [← out]
    by_cases short : (d.drop o).length < p
    · rw [if_pos short, if_pos short]
    · rw [if_neg short, if_neg short, size short]
      norm_cast

variable {o : Nat}

theorem corePiece_end (h : d.length ≤ o) : (corePiece p d o).offset = -1 ∧
    (corePiece p d o).status = some .badOption := by
  rw [corePiece, if_pos (List.drop_of_length_le h)]
  exact ⟨rfl, rfl⟩

theorem corePiece_some (h : o < d.length) : (corePiece p d o).status = some .ok ∧
    (corePiece p d o).bytes = (d.drop o).take p ∧
    (corePiece p d o).offset = if d.length - o < p then -1 else ((o + p : Nat) : Int) := by
  have some' : d.drop o ≠ [] := fun e => by
    have := congrArg List.length e
    rw [List.length_drop, List.length_nil] at this
    omega
  rw [corePiece, if_neg some', List.length_drop]
  exact ⟨rfl, List.take_length, rfl⟩

theorem Writes.exists_replies (w : st.Writes p d) (positive : 0 < p) (o : Nat) :
    ∃ replies, st.CoreReplies p o replies := by
  let s : State := { State.init .plain (fun _ => none) .bare with store := st }
  have reply := w s
  generalize left : d.length - o = n
  induction n using Nat.strongRecOn generalizing o with
  | _ n ih =>
    by_cases more : o < d.length ∧ ¬d.length - o < p
    · have onward : (s.emmaWellKnownCoreHandler p o).2.offset = (o + p : Nat) := by
        rw [reply o rfl, (corePiece_some more.1).2.2, if_neg more.2]
      obtain ⟨rest, further⟩ := ih (d.length - (o + p)) (by omega) (o + p) rfl
      exact ⟨_, .more rfl (by rw [onward]; omega) (onward ▸ further)⟩
    · refine ⟨_, .last (s := s) rfl ?_⟩
      rw [reply o rfl]
      by_cases some' : o < d.length
      · rw [(corePiece_some some').2.2, if_pos (by omega)]
      · exact (corePiece_end (Nat.not_lt.mp some')).1

theorem Writes.pieces (w : st.Writes p d) (positive : 0 < p) (inside : o ≤ d.length)
    {replies : List Reply} (h : st.CoreReplies p o replies) :
    (p ∣ d.length - o → ∃ r ∈ replies, r.status ≠ some .ok) ∧
      (¬p ∣ d.length - o → Pieces p (d.drop o) (replies.map Reply.bytes) ∧
        ∀ r ∈ replies, r.status = some .ok) := by
  generalize hn : d.length - o = n
  induction n using Nat.strongRecOn generalizing o replies with
  | _ n ih =>
    by_cases some' : o < d.length
    · obtain ⟨status, bytes, next⟩ := corePiece_some (p := p) some'
      generalize ho : (o : Int) = offset at h
      cases h with
      | @last s _ hs ended =>
        subst ho
        rw [w s o hs] at ended ⊢
        have short : d.length - o < p := by
          by_contra long
          rw [next, if_neg long] at ended
          omega
        have all : (d.drop o).take p = d.drop o :=
          List.take_of_length_le (by rw [List.length_drop]; omega)
        refine ⟨fun divides => ?_, fun _ => ⟨?_, by simpa using status⟩⟩
        · have := Nat.le_of_dvd (by omega) divides
          omega
        · rw [List.map_singleton, bytes, all]
          refine .single (fun e => ?_) (by rw [List.length_drop]; omega)
          have := congrArg List.length e
          rw [List.length_drop, List.length_nil] at this
          omega
      | @more s _ rest hs onward further =>
        subst ho
        rw [w s o hs] at onward further ⊢
        have long : ¬d.length - o < p := fun short => onward (by rw [next, if_pos short])
        rw [next, if_neg long] at further
        obtain ⟨divided, undivided⟩ := ih (d.length - (o + p)) (by omega) (by omega) further rfl
        have same : p ∣ n ↔ p ∣ d.length - (o + p) := by
          rw [show n = d.length - (o + p) + p by omega]
          exact (Nat.dvd_add_iff_left (Nat.dvd_refl p)).symm
        rw [same]
        refine ⟨fun divides => ?_, fun h => ?_⟩
        · obtain ⟨r, hr, failed⟩ := divided divides
          exact ⟨r, .tail _ hr, failed⟩
        · obtain ⟨pieces, success⟩ := undivided h
          have split : d.drop o = (d.drop o).take p ++ d.drop (o + p) := by
            rw [← List.drop_drop, List.take_append_drop]
          have size : ((d.drop o).take p).length = p := by
            rw [List.length_take, List.length_drop]
            omega
          refine ⟨?_, by simpa using ⟨status, success⟩⟩
          rw [List.map_cons, bytes]
          nth_rewrite 1 [split]
          refine pieces.cons positive size ?_
          intro none'
          have left := pieces.joined
          rw [none', List.flatten_nil] at left
          have := congrArg List.length left
          rw [List.length_nil, List.length_drop] at this
          exact h (by rw [← this]; exact Nat.dvd_zero p)
    · obtain ⟨offset, status⟩ := corePiece_end (p := p) (Nat.not_lt.mp some')
      refine ⟨fun _ => ?_, fun h => absurd ?_ h⟩
      · generalize ho : (o : Int) = offset at h
        cases h with
        | @last s _ hs _ =>
          subst ho
          exact ⟨_, .head _, by rw [w s o hs, status]; simp⟩
        | @more s _ rest hs onward _ =>
          subst ho
          exact ⟨_, .head _, by rw [w s o hs, status]; simp⟩
      · rw [← hn, Nat.sub_eq_zero_of_le (Nat.not_lt.mp some')]
        exact Nat.dvd_zero p

theorem Writes.serves_iff {document : Text} (w : st.Writes p d) (positive : 0 < p) :
    st.Serves p document ↔ d = document ∧ ¬p ∣ document.length := by
  have transfer : ∀ replies, st.CoreReplies p 0 replies → _ := fun replies hr =>
    w.pieces positive (Nat.zero_le _) hr
  rw [List.drop_zero, Nat.sub_zero] at transfer
  constructor
  · intro serves
    obtain ⟨replies, hr⟩ := serves.ends
    obtain ⟨divided, undivided⟩ := transfer replies hr
    have undivides : ¬p ∣ d.length := fun divides => by
      obtain ⟨r, member, failed⟩ := divided divides
      exact failed (serves.success replies hr r member)
    obtain rfl := (undivided undivides).1.joined.symm.trans (serves.pieces replies hr).joined
    exact ⟨rfl, undivides⟩
  · rintro ⟨rfl, undivides⟩
    exact ⟨w.exists_replies positive 0, fun replies hr => ((transfer replies hr).2 undivides).1,
      fun replies hr => ((transfer replies hr).2 undivides).2⟩

theorem linkDocument_takeWhile {t : Tree} {visits : List (Root × Option Nat)}
    {fits : Root × Option Nat → Bool}
    (h : t.linkDocument (visits.takeWhile fits) = t.linkDocument visits) :
    visits.takeWhile fits = visits := by
  have lengths := congrArg List.length h
  have split := List.takeWhile_append_dropWhile (p := fits) (l := visits)
  rw [Tree.linkDocument, Tree.linkDocument, chars, List.map_singleton, length_intercalate,
    length_intercalate] at lengths
  nth_rewrite 2 [← split] at lengths
  simp only [List.map_append, List.sum_append, List.map_map] at lengths
  cases rest : visits.dropWhile fits with
  | nil => rw [rest, List.append_nil] at split; exact split
  | cons v l =>
    rw [rest, List.map_cons, List.sum_cons] at lengths
    simp only [Function.comp_apply, linkEntry, chars, List.length_append, List.length_map,
      List.length_cons] at lengths
    omega

variable {P : Platform} {f : Root → Forest Nat}

theorem Sound.writes (so : st.Sound f) (positive : 0 < p) : st.Writes p
    (st.tree.linkDocument ((Root.visits (fun r => (f r).walk) Root.all).takeWhile
      fun v => (st.tree.fullPath v).length ≤ emmaMaxUriSize)) := by
  refine writes_document positive (fun it => ?_) (fun v hv => ?_) ?_
  · have names := so.hands it .agent emmaMaxUriSize
    rw [List.takeWhile_map] at names
    exact names
  · simpa using List.mem_takeWhile_imp hv
  · exact Nat.lt_of_le_of_lt (List.takeWhile_sublist _).length_le (so.shape.visits_le .agent)

theorem Reached.core_served_iff (h : st.Reached P) : ∃ order : Root → List Nat,
    (∀ r, st.tree.Postorder r (order r)) ∧ ∀ p, 0 < p →
      let visits := Root.visits order Root.all
      (st.Serves p (st.tree.linkDocument visits) ↔
        (∀ v ∈ visits, (st.tree.fullPath v).length ≤ emmaMaxUriSize) ∧
          ¬p ∣ (st.tree.linkDocument visits).length) := by
  obtain ⟨f, so⟩ := h.sound
  refine ⟨fun r => (f r).walk, so.postorder, fun p positive => ?_⟩
  intro visits
  rw [(so.writes positive).serves_iff positive]
  refine and_congr_left fun _ => ⟨fun same v hv => ?_, fun fits => ?_⟩
  · simpa using List.takeWhile_eq_self_iff.mp (linkDocument_takeWhile same) v hv
  · rw [List.takeWhile_eq_self_iff.mpr fun v hv => by simpa using fits v hv]

theorem empty_reached (files : Nat → Option Text) : (empty files).Reached P := ⟨files, .refl⟩

/-- In four pieces -/
theorem core_served_grove :
    (grove.tree.linkDocument (Root.visits groveOrder Root.all)).length = 234 ∧
      grove.Serves 64 (grove.tree.linkDocument (Root.visits groveOrder Root.all)) := by
  have size : (grove.tree.linkDocument (Root.visits groveOrder Root.all)).length = 234 := by
    decide +kernel
  obtain ⟨order, post, served⟩ := grove_reached.core_served_iff
  obtain rfl := grove_order post
  exact ⟨size, (served 64 (by decide)).mpr ⟨by decide +kernel, by rw [size]; decide⟩⟩

/-- Pieces of one byte each are followed by a reply out of scope. -/
theorem core_out_of_scope : ¬ ∀ (P : Platform) (st : Store), st.Reached P →
    ∃ order : Root → List Nat, (∀ r, st.tree.Postorder r (order r)) ∧
      ∀ p, 0 < p → st.Serves p (st.tree.linkDocument (Root.visits order Root.all)) := by
  intro h
  have reached := empty_reached (P := .plain) fun _ => none
  obtain ⟨order, -, served⟩ := h _ _ reached
  obtain ⟨f, so⟩ := reached.sound
  have serves := served 1 Nat.one_pos
  obtain ⟨replies, hr⟩ := serves.ends
  obtain ⟨r, member, failed⟩ :=
    ((so.writes Nat.one_pos).pieces Nat.one_pos (Nat.zero_le _) hr).1 (Nat.one_dvd _)
  exact failed (serves.success replies hr r member)

end Store
end EmmaNode
