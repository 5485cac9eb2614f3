import PagedIndex.Proofs.Codec
import PagedIndex.Image.NodeFormat
import Mathlib.Data.List.Zip

/-!
# Nodes are read back

What is stored of a node is decoded to that node, with the values of its measures. This asks for no more than
that the counts and lengths in it fit the fields that they are stored in.
-/

namespace PagedIndex

variable {K I : Type}

/-- A node whose slots can be counted in a stored page, and of the proper shape. -/
def Node.Storable : Node K I → Prop
  | .leaf l => l.size < 2 ^ 32
  | .inner p => p.size < 2 ^ 32 ∧ p.children.length = p.keys.length + 1

namespace StoredPage

open Reader

/-! ## Measures -/

theorem length_encodeMeasures (ms : List Int64) : (encodeMeasures ms).length = 2 + ms.length * 8 := by
  have hvalues : (ms.flatMap Codec.encode).length = ms.length * 8 := by
    induction ms with
    | nil => rfl
    | cons m ms ih =>
      have hm : (Codec.encode m).length = 8 := Bytes.LittleEndian.length_ofNat 8 _
      rw [List.flatMap_cons, List.length_append, ih, hm, List.length_cons]
      omega
  rw [encodeMeasures, List.length_append, Bytes.LittleEndian.length_ofNat, hvalues]

theorem takes_measures {ms : List Int64} (h : ms.length < 2 ^ 16) :
    Takes decodeMeasures (encodeMeasures ms) ms := by
  have hlen := length_encodeMeasures ms
  rw [encodeMeasures, List.length_append, Bytes.LittleEndian.length_ofNat] at hlen
  have hvalues : Takes (many (do return (← word64).toInt64) ms.length) (ms.flatMap Codec.encode) (ms.map id) :=
    takes_many fun m _ => (takes_word64 m.toUInt64).map (by rw [Int64.toInt64_toUInt64]; rfl)
  rw [List.map_id] at hvalues
  unfold decodeMeasures
  refine Takes.require ?_ (by rw [length_encodeMeasures]; exact Nat.le_add_right _ _)
  exact (takes_number h).bind (hvalues.require (by omega))

/-! ## Children -/

section

variable [Codec K]

theorem takes_child (child : PageRef) : Takes decodeChild (Bytes.ofWord64 child.id) child :=
  (Codec.takes_number child.id.toNat_lt).map (by rw [UInt64.ofNat_toNat])

variable [LawfulCodec K]

theorem takes_slot {slot : K × PageRef} (h : (Codec.encode slot.1).length < 2 ^ 32) :
    Takes decodeSlot (Codec.encode slot.1 ++ Bytes.ofWord64 slot.2.id) slot :=
  (LawfulCodec.takes_encode slot.1 h).bind ((takes_child slot.2).map rfl)

end

/-- What is stored of a part is no longer than what is stored of the whole. -/
theorem length_le_flatMap {α β : Type} {f : α → List β} {as : List α} {a : α} (h : a ∈ as) :
    (f a).length ≤ (as.flatMap f).length := by
  rw [List.flatMap_def]
  exact (List.sublist_flatten_of_mem (List.mem_map_of_mem h)).length_le

/-! ## Nodes -/

variable [Codec K] [Codec I] [LawfulCodec K]

theorem takes_inner {keys : List K} {first : PageRef} {children : List PageRef}
    (hsize : keys.length < 2 ^ 32) (hlen : children.length = keys.length)
    (hpayload : ((keys.zip children).flatMap fun slot =>
      Codec.encode slot.1 ++ Bytes.ofWord64 slot.2.id).length < 2 ^ 32) (right : Option PageRef) :
    Takes (decodeBody .inner right) (Bytes.LittleEndian.ofNat 4 keys.length ++ (Bytes.ofWord64 first.id
      ++ (keys.zip children).flatMap fun slot => Codec.encode slot.1 ++ Bytes.ofWord64 slot.2.id))
      (.inner ⟨keys, first :: children⟩ : Node K I) := by
  have hcount : (keys.zip children).length = keys.length := by
    rw [List.length_zip, hlen, Nat.min_self]
  have hslots : Takes (many decodeSlot (keys.zip children).length) ((keys.zip children).flatMap fun slot =>
      Codec.encode slot.1 ++ Bytes.ofWord64 slot.2.id) ((keys.zip children).map id) := by
    refine takes_many fun slot hslot => takes_slot (Nat.lt_of_le_of_lt ?_ hpayload)
    refine Nat.le_trans ?_ (length_le_flatMap hslot)
    rw [List.length_append]
    exact Nat.le_add_right _ _
  rw [List.map_id, hcount] at hslots
  refine (Codec.takes_number hsize).bind ((takes_child first).bind (hslots.map ?_))
  have hparts : Inner.ofParts? ((keys.zip children).map Prod.fst) (first :: (keys.zip children).map Prod.snd)
      = some ⟨keys, first :: children⟩ := by
    rw [List.map_fst_zip (Nat.le_of_eq hlen.symm), List.map_snd_zip (Nat.le_of_eq hlen), Inner.ofParts?,
      if_pos (by rw [List.length_cons, hlen])]
  rw [hparts]
  rfl

variable [LawfulCodec I]

theorem takes_leaf {leaf : Leaf K I} (hsize : leaf.size < 2 ^ 32)
    (hpayload : (leaf.entries.flatMap Codec.encode).length < 2 ^ 32) :
    Takes (decodeBody .leaf leaf.right)
      (Bytes.LittleEndian.ofNat 4 leaf.size ++ leaf.entries.flatMap Codec.encode) (.leaf leaf : Node K I) := by
  have hentries : Takes (many Codec.decode leaf.size) (leaf.entries.flatMap Codec.encode) (leaf.entries.map id) :=
    takes_many fun e he => LawfulCodec.takes_encode e (Nat.lt_of_le_of_lt (length_le_flatMap he) hpayload)
  rw [List.map_id] at hentries
  exact (Codec.takes_number hsize).bind (hentries.map rfl)

/-- A stored node is decoded to that node. -/
theorem decode_ofNode {node : Node K I} {ms : List Int64} (hms : ms.length < 2 ^ 16) (hnode : node.Storable)
    (hpayload : (ofNode node ms).payload.length < 2 ^ 32) : (ofNode node ms).decode = .ok (node, ms) := by
  -- the rest of the payload after the measures is what is left to the node
  have hdecode : ∀ {kind right body}, Takes (decodeBody kind right) body node →
      (decodePayload kind right).run (encodeMeasures ms ++ body) = .ok (node, ms) := by
    intro kind right body hbody
    have hrun : Action.Runs (decodePayload kind right) (encodeMeasures ms ++ body) (node, ms) [] := by
      unfold decodePayload
      refine (takes_measures hms body).bind ?_
      rw [← List.append_nil body]
      refine (hbody []).bind ?_
      exact (runs_left []).bind (Action.runs_pure _ _)
    unfold Reader.run
    rw [show decodePayload kind right _ = _ from hrun]
  cases node with
  | leaf leaf =>
    unfold decode ofNode
    unfold ofNode at hpayload
    dsimp only at hpayload ⊢
    rw [List.append_assoc] at hpayload ⊢
    refine hdecode (takes_leaf hnode ?_)
    rw [List.length_append, List.length_append] at hpayload
    omega
  | inner inner =>
    obtain ⟨keys, children⟩ := inner
    obtain ⟨hsize, hlen⟩ := hnode
    cases children with
    | nil => exact absurd hlen (by simp)
    | cons first children =>
      unfold decode ofNode
      unfold ofNode at hpayload
      dsimp only [List.take, List.drop] at hpayload ⊢
      rw [List.flatMap_singleton, List.append_assoc, List.append_assoc] at hpayload ⊢
      rw [List.length_append, List.length_append, List.length_append] at hpayload
      have hslots : ((keys.zip children).flatMap fun slot =>
          Codec.encode slot.1 ++ Bytes.ofWord64 slot.2.id).length < 2 ^ 32 := by omega
      exact hdecode (takes_inner hsize (Nat.succ.inj hlen) hslots none)

end StoredPage

end PagedIndex
