import EmmaNode.Digits
import EmmaNode.JsonStrings
import EmmaNode.LinkFormat
import EmmaNode.Server

/-! The list of a root, block by block. What is sent of the text that the handler prints is
decided by the length it gives, and this is the offset of the next block: -1 behind the last. -/

namespace EmmaNode

/-- `REST_MAX_CHUNK_SIZE` -/
def restMaxChunkSize : Nat := 64

/-- The payload `coap_set_payload` makes of the memory behind a pointer; the length is
unsigned. -/
def coapSetPayload (P : Platform) (memory : Text) (length : Int) : Text :=
  memory.take (min restMaxChunkSize (P.unsigned length))

/-- What is sent of a reply that moves the offset: no more than a block. `behind` is what the
packet holds behind the bytes the handler has written. -/
def Reply.sent (P : Platform) (r : Reply) (behind : Text) (size : Nat) : Text :=
  match r.payload with
  | none => []
  | some result => (coapSetPayload P (result.bytes ++ behind) result.returned).take size

/-- A GET of a bare root -/
structure Request.Lists (rq : Request) (root : Root) (size : Nat) (offset : Int) : Prop where
  url : rq.url = root.name
  method : rq.method = .get
  preferredSize : rq.preferredSize = size
  offset : rq.offset = offset

/-- The payloads at the offsets `i`, `i + p` and so on, up to the block after which the
handler sets -1. Between two blocks anything may happen that leaves the store as it is. -/
inductive ListBlocks (P : Platform) (st : Store) (root : Root) (p : Nat) : Int → List Text → Prop
  | last {s : State} {rq : Request} {behind : Text} {i : Int} : s.store = st →
      rq.Lists root p i → (s.emmaServerHandler P rq).2.offset = -1 →
      ListBlocks P st root p i [(s.emmaServerHandler P rq).2.sent P behind p]
  | more {s : State} {rq : Request} {behind : Text} {i : Int} {rest : List Text} :
      s.store = st → rq.Lists root p i → (s.emmaServerHandler P rq).2.offset ≠ -1 →
      ListBlocks P st root p (i + p) rest →
      ListBlocks P st root p i ((s.emmaServerHandler P rq).2.sent P behind p :: rest)

/-- The payloads are an array of strings, with every path of the root in it once. -/
def Store.ListsRoot (P : Platform) (st : Store) (root : Root) (p : Nat) : Prop :=
  ∃ payloads names, ListBlocks P st root p 0 payloads ∧
    JsonStrings.read payloads.flatten = some names ∧
    ∀ i, st.tree.Live root i → names.count (st.tree.fullPath (root, some i)) = 1

namespace State
variable {P : Platform} {s : State} {rq : Request} {root : Root} {p : Nat} {i : Int}

theorem emmaServerHandler_list (h : rq.Lists root p i) :
    s.emmaServerHandler P rq = s.handleList rq root.name (.init rq) := by
  have uri : rq.uri = some root.name := by
    rw [Request.uri, h.url]
    cases root <;> rfl
  have isRoot : emmaResourceIsRoot root.name = true := by cases root <;> rfl
  rw [emmaServerHandler]
  simp only [uri, h.method, handleGet, isRoot, if_true]

theorem coapSetPayload_last (memory : Text) :
    coapSetPayload P memory (-1) = memory.take restMaxChunkSize := by
  have wide : 2 ^ 16 ≤ 2 ^ P.intBits := Nat.pow_le_pow_right (by decide) P.intBits_ge
  have length : P.unsigned (-1) = 2 ^ P.intBits - 1 := P.unsigned_neg Nat.one_pos Nat.one_le_two_pow
  rw [coapSetPayload, length, Nat.min_eq_left]
  simp only [restMaxChunkSize]
  omega

theorem zero_mem_sent (range : p ≤ restMaxChunkSize) (start : 0 ≤ i) (h : rq.Lists root p i)
    (last : (s.emmaServerHandler P rq).2.offset = -1) (behind : Text) :
    0 ∈ (s.emmaServerHandler P rq).2.sent P behind p := by
  rw [emmaServerHandler_list h] at last ⊢
  simp only [handleList, finish, Reply.init, h.preferredSize, h.offset] at last ⊢
  generalize (listFrom _ _ _ _ _ _ _ _).2 = buffer at last ⊢
  by_cases short : buffer.length + 1 < p
  · have all : buffer.length < min p restMaxChunkSize := by omega
    rw [Reply.sent]
    simp only [if_pos short]
    rw [coapSetPayload_last, List.take_take, List.append_assoc, List.take_append,
      List.take_of_length_le (Nat.le_of_lt all)]
    obtain ⟨more, hm⟩ : ∃ more, min p restMaxChunkSize - buffer.length = more + 1 :=
      ⟨_, (Nat.succ_pred_eq_of_pos (Nat.sub_pos_of_lt all)).symm⟩
    simp [hm]
  · rw [if_neg short] at last
    omega

theorem zero_mem_listed {payloads : List Text} (range : p ≤ restMaxChunkSize) (start : 0 ≤ i)
    {st : Store} (h : ListBlocks P st root p i payloads) : 0 ∈ payloads.flatten := by
  induction h with
  | last _ lists ended =>
    rw [List.flatten_singleton]
    exact zero_mem_sent range start lists ended _
  | more _ _ _ _ ih =>
    rw [List.flatten_cons, List.mem_append]
    exact .inr (ih (by omega))

end State

namespace Store

theorem root_never_listed (P : Platform) (st : Store) (root : Root) (p : Nat)
    (range : 16 ≤ p ∧ p ≤ restMaxChunkSize) : ¬st.ListsRoot P root p := by
  rintro ⟨payloads, names, listed, parsed, -⟩
  have zero := State.zero_mem_listed range.2 (Int.le_refl 0) listed
  rw [JsonStrings.read_zero zero] at parsed
  cases parsed

/-- The list of `S` without resources is sent as one block of sixteen bytes, seven of them text. -/
theorem root_list_unterminated : ¬ ∀ (P : Platform) (st : Store) (root : Root) (p : Nat),
    st.Reached P → 16 ≤ p ∧ p ≤ restMaxChunkSize → st.ListsRoot P root p := by
  intro h
  obtain ⟨payloads, names, listed, parsed, -⟩ :=
    h .plain (empty fun _ => none) .system 16 (empty_reached _) (by decide)
  have zero := State.zero_mem_listed (by decide) (Int.le_refl 0) listed
  rw [JsonStrings.read_zero zero] at parsed
  cases parsed

theorem root_never_listed_system :
    (16 ≤ 16 ∧ 16 ≤ restMaxChunkSize) ∧ ¬(empty fun _ => none).ListsRoot .plain .system 16 :=
  ⟨by decide, root_never_listed .plain (empty fun _ => none) .system 16 (by decide)⟩

end Store
end EmmaNode
