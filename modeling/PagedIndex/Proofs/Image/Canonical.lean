import PagedIndex.Proofs.Image.Nodes
import PagedIndex.Proofs.Inverting

/-!
# Nodes have one stored form

What is stored of a node and its measures is decoded to them, and a stored page that is decoded at all is what is
stored of the answer (`StoredPage.decode_eq_ok_iff`), whatever shapes keys and items have
(`StoredPage.decode_canonical`). So a payload with a wrong count, with too few bytes or with bytes behind the last
slot is decoded to nothing.
-/

namespace PagedIndex

variable {K I : Type}

namespace Node

/-- All keys that are stored in the node have `P`, and all items `Q`. -/
def Each (P : K → Prop) (Q : I → Prop) : Node K I → Prop
  | .leaf l => ∀ e ∈ l.entries, P e.1 ∧ Q e.2
  | .inner p => ∀ key ∈ p.keys, P key

/-- The kind of page that the node is stored as. -/
def kind : Node K I → PageKind
  | .leaf _ => .leaf
  | .inner _ => .inner

/-- The link of a leaf; an inner page has none. -/
def right : Node K I → Option PageRef
  | .leaf l => l.right
  | .inner _ => none

/-- The entries of a leaf. -/
def entries : Node K I → List (K × I)
  | .leaf l => l.entries
  | .inner _ => []

/-- The first child of an inner page, and each separator with the child behind it. -/
def slots : Node K I → PageRef × List (K × PageRef)
  | .leaf _ => (.undefined, [])
  | .inner p => (p.children.headD .undefined, p.keys.zip p.children.tail)

/-- The inner page with these slots. -/
def ofSlots (slots : PageRef × List (K × PageRef)) : Node K I :=
  .inner ⟨slots.2.map Prod.fst, slots.1 :: slots.2.map Prod.snd⟩

theorem slots_ofSlots (slots : PageRef × List (K × PageRef)) : (ofSlots slots : Node K I).slots = slots := by
  show (slots.1, (slots.2.map Prod.fst).zip (slots.2.map Prod.snd)) = slots
  rw [List.zip_map']
  exact congrArg (Prod.mk slots.1) (List.map_id' _)

/-- An inner page is known by its slots if it has one more child than separators. -/
theorem eq_ofSlots_iff {inner : Inner K} :
    (Node.inner inner : Node K I) = ofSlots (Node.inner inner : Node K I).slots
      ↔ inner.children.length = inner.keys.length + 1 := by
  obtain ⟨keys, children⟩ := inner
  constructor
  · intro h
    obtain ⟨hkeys, hchildren⟩ := Inner.mk.inj (Node.inner.inj h)
    have hcount := congrArg List.length hkeys
    rw [List.length_map] at hcount
    show children.length = keys.length + 1
    rw [hchildren, hcount, List.length_cons, List.length_map]
  · intro h
    cases children with
    | nil => exact absurd h (by simp)
    | cons first others =>
      have hlen : others.length = keys.length := Nat.succ.inj h
      show _ = Node.inner ⟨(keys.zip others).map Prod.fst, first :: (keys.zip others).map Prod.snd⟩
      rw [List.map_fst_zip (Nat.le_of_eq hlen.symm), List.map_snd_zip (Nat.le_of_eq hlen)]

end Node

namespace StoredPage

open Reader

/-! ## Parts of a payload -/

theorem inverts_decodeMeasures : Inverts decodeMeasures encodeMeasures fun ms => ms.length < 2 ^ 16 := by
  have hvalue : Inverts (do return (← word64).toInt64) (Codec.encode : Int64 → List UInt8) fun _ => True :=
    inverts_word64.convert UInt64.toUInt64_toInt64 Int64.toInt64_toUInt64
  have hvalues : ∀ count : Nat, Inverts (do require (count * 8); many (do return (← word64).toInt64) count)
      (fun ms => ms.flatMap Codec.encode) fun ms => ms.length = count ∧ ∀ m ∈ ms, True := by
    intro count
    refine (hvalue.many count).require ?_
    rintro ms ⟨rfl, -⟩
    have hlen := length_encodeMeasures ms
    rw [encodeMeasures, List.length_append, Bytes.LittleEndian.length_ofNat] at hlen
    omega
  -- bytes are asked for twice, first those of the number of values and then those of the values
  refine Inverts.require (((Reader.inverts_number 2).bind List.length (fun count _ => hvalues count)
    fun _ _ _ h => h.1).congr (fun _ _ => rfl) fun ms => ?_) fun ms _ => ?_
  · exact and_iff_left ⟨rfl, fun _ _ => trivial⟩
  · show 2 ≤ (encodeMeasures ms).length
    rw [length_encodeMeasures]
    exact Nat.le_add_right _ _

theorem inverts_decodeChild : Inverts decodeChild (fun child => Bytes.ofWord64 child.id) fun _ => True :=
  (Codec.inverts_number 8).word (fun _ => congrArg PageRef.mk UInt64.ofNat_toNat) (fun child => child.id.toNat_lt)
    fun _ h => UInt64.toNat_ofNat_of_lt' h

variable [Codec K] [Codec I] {P : K → Prop} {Q : I → Prop}

/-- The bytes of a node behind those of its measures. -/
def encodeBody : Node K I → List UInt8
  | .leaf leaf => Bytes.LittleEndian.ofNat 4 leaf.size ++ leaf.entries.flatMap Codec.encode
  | .inner inner => Bytes.LittleEndian.ofNat 4 inner.size
      ++ ((inner.children.take 1).flatMap (fun child => Bytes.ofWord64 child.id)
        ++ (inner.keys.zip (inner.children.drop 1)).flatMap
          fun slot => Codec.encode slot.1 ++ Bytes.ofWord64 slot.2.id)

theorem payload_ofNode (node : Node K I) (ms : List Int64) :
    (ofNode node ms).payload = encodeMeasures ms ++ encodeBody node := by
  cases node with
  | leaf leaf => exact List.append_assoc _ _ _
  | inner inner =>
    show encodeMeasures ms ++ _ ++ _ ++ _ = _
    rw [List.append_assoc, List.append_assoc]
    rfl

theorem kind_ofNode (node : Node K I) (ms : List Int64) : (ofNode node ms).kind = node.kind := by
  cases node <;> rfl

theorem right_ofNode (node : Node K I) (ms : List Int64) : (ofNode node ms).right = node.right := by
  cases node <;> rfl

/-- As many values as the number in front of them says. -/
theorem inverts_counted {α : Type} {read : Reader α} {encode : α → List UInt8} {Fits : α → Prop}
    (h : Inverts read encode Fits) : Inverts (do many read (← Codec.number 4))
      (fun as => Bytes.LittleEndian.ofNat 4 as.length ++ as.flatMap encode)
      fun as => as.length < 2 ^ 32 ∧ ∀ a ∈ as, Fits a :=
  ((Codec.inverts_number 4).bind List.length (fun count _ => h.many count) fun _ _ _ h => h.1).congr (fun _ _ => rfl)
    fun _ => and_congr_right fun _ => and_iff_right rfl

theorem inverts_leaf (hkey : Inverts Codec.decode Codec.encode P) (hitem : Inverts Codec.decode Codec.encode Q)
    (right : Option PageRef) : Inverts (decodeBody .leaf right) encodeBody fun node : Node K I =>
      node.Storable ∧ node.Each P Q ∧ ∃ leaf, node = .leaf leaf ∧ leaf.right = right := by
  have hentries := inverts_counted (Codec.inverts_pair hkey hitem)
  have hread : decodeBody .leaf right = (do
      let entries ← (do many (Codec.decode : Reader (K × I)) (← Codec.number 4))
      return (Node.leaf ⟨entries, right⟩ : Node K I)) := by
    rw [bind_assoc]
    rfl
  rw [hread]
  refine (hentries.map (f := fun entries => Node.leaf ⟨entries, right⟩) Node.entries fun _ _ => rfl).congr ?_ ?_
  · rintro node ⟨-, heq⟩
    rw [heq]
    rfl
  · intro node
    constructor
    · rintro ⟨⟨hcount, hfits⟩, heq⟩
      rw [heq] at hcount hfits ⊢
      exact ⟨hcount, hfits, _, rfl, rfl⟩
    · rintro ⟨hcount, hfits, leaf, rfl, rfl⟩
      exact ⟨⟨hcount, hfits⟩, rfl⟩

theorem decodeBody_inner (right : Option PageRef) : decodeBody .inner right = (do
    let slots ← (do
      let count ← Codec.number 4
      let first ← decodeChild
      let others : List (K × PageRef) ← many decodeSlot count
      return (first, others))
    return (Node.ofSlots slots : Node K I)) := by
  simp only [decodeBody, bind_assoc, pure_bind]
  refine congrArg _ (funext fun count => congrArg _ (funext fun first => congrArg _ (funext fun others => ?_)))
  have hparts : Inner.ofParts? (others.map Prod.fst) (first :: others.map Prod.snd)
      = some ⟨others.map Prod.fst, first :: others.map Prod.snd⟩ := by
    rw [Inner.ofParts?, if_pos (by rw [List.length_cons, List.length_map, List.length_map])]
  rw [hparts]
  rfl

theorem encodeBody_ofSlots (slots : PageRef × List (K × PageRef)) : encodeBody (Node.ofSlots slots : Node K I)
    = Bytes.LittleEndian.ofNat 4 slots.2.length ++ (Bytes.ofWord64 slots.1.id
      ++ slots.2.flatMap fun slot => Codec.encode slot.1 ++ Bytes.ofWord64 slot.2.id) := by
  have hzip : (slots.2.map Prod.fst).zip (slots.2.map Prod.snd) = slots.2 := by
    rw [List.zip_map']
    exact List.map_id' _
  unfold Node.ofSlots encodeBody
  dsimp only [List.take, List.drop]
  rw [hzip, Inner.size, List.length_map, List.flatMap_singleton]

theorem inverts_inner (hkey : Inverts Codec.decode Codec.encode P) (right : Option PageRef) :
    Inverts (decodeBody .inner right) encodeBody fun node : Node K I =>
      node.Storable ∧ node.Each P Q ∧ ∃ inner, node = .inner inner := by
  have hslots : ∀ count : Nat, Inverts (do
      let first ← decodeChild
      let others : List (K × PageRef) ← many decodeSlot count
      return (first, others)) _ _ :=
    fun count => inverts_decodeChild.pair ((hkey.pair inverts_decodeChild).many count)
  -- slots and inner page stand for each other as long as there is one more child than separators
  rw [decodeBody_inner]
  refine (((Codec.inverts_number 4).bind (fun slots => slots.2.length) (fun count _ => hslots count)
    fun _ _ _ h => h.2.1).map Node.slots fun slots _ => Node.slots_ofSlots slots).congr ?_ ?_
  · intro node hnode
    generalize node.slots = slots at hnode ⊢
    rw [hnode.2, encodeBody_ofSlots]
  · intro node
    constructor
    · intro hnode
      generalize node.slots = slots at hnode
      obtain ⟨⟨hcount, -, -, hfits⟩, rfl⟩ := hnode
      refine ⟨⟨?_, ?_⟩, List.forall_mem_map.mpr fun slot hslot => (hfits slot hslot).1, _, rfl⟩
      · show (slots.2.map Prod.fst).length < 2 ^ 32
        rwa [List.length_map]
      · rw [List.length_cons, List.length_map, List.length_map]
    · rintro ⟨hstorable, heach, inner, rfl⟩
      obtain ⟨hsize, hlen⟩ := hstorable
      have hcount : (inner.keys.zip inner.children.tail).length < 2 ^ 32 := by
        rw [List.length_zip]
        exact Nat.lt_of_le_of_lt (Nat.min_le_left ..) hsize
      refine ⟨⟨hcount, trivial, rfl, fun slot hslot => ⟨heach _ ?_, trivial⟩⟩, Node.eq_ofSlots_iff.mpr hlen⟩
      exact (List.of_mem_zip hslot).1

/-- For pages of either kind, and for no other pages, nodes of that kind are read. -/
theorem inverts_decodeBody (hkey : Inverts Codec.decode Codec.encode P) (hitem : Inverts Codec.decode Codec.encode Q)
    (kind : PageKind) (right : Option PageRef) : Inverts (decodeBody kind right) encodeBody fun node : Node K I =>
      node.Storable ∧ node.Each P Q ∧ node.kind = kind ∧ (kind = .leaf → node.right = right) := by
  cases kind with
  | leaf =>
    refine (inverts_leaf hkey hitem right).congr (fun _ _ => rfl) fun node => ?_
    refine and_congr_right fun _ => and_congr_right fun _ => ⟨?_, fun h => ?_⟩
    · rintro ⟨leaf, rfl, rfl⟩
      exact ⟨rfl, fun _ => rfl⟩
    · cases node with
      | leaf leaf => exact ⟨leaf, rfl, h.2 rfl⟩
      | inner inner => exact absurd h.1 PageKind.noConfusion
  | inner =>
    refine (inverts_inner (Q := Q) hkey right).congr (fun _ _ => rfl) fun node => ?_
    refine and_congr_right fun _ => and_congr_right fun _ => ⟨?_, fun h => ?_⟩
    · rintro ⟨inner, rfl⟩
      exact ⟨rfl, PageKind.noConfusion⟩
    · cases node with
      | leaf leaf => exact absurd h.1 PageKind.noConfusion
      | inner inner => exact ⟨inner, rfl⟩
  | invalid =>
    refine (inverts_fail _ encodeBody).congr (fun _ _ => rfl) fun node => iff_of_false id fun h => ?_
    cases node <;> exact absurd h.2.2.1 PageKind.noConfusion
  | descriptor =>
    refine (inverts_fail _ encodeBody).congr (fun _ _ => rfl) fun node => iff_of_false id fun h => ?_
    cases node <;> exact absurd h.2.2.1 PageKind.noConfusion

/-- What is decoded is the values of the measures, and behind them a node that uses up the payload. -/
theorem exists_runs_of_decode {page : StoredPage} {node : Node K I} {ms : List Int64}
    (h : page.decode = .ok (node, ms)) : ∃ body, Action.Runs decodeMeasures page.payload ms body
      ∧ Action.Runs (decodeBody page.kind page.right) body node [] := by
  obtain ⟨rest, hrun⟩ := runs_of_run_eq h
  obtain ⟨ms', mid, hmeasures, hrun⟩ := hrun.of_bind
  obtain ⟨node', last, hnode, hrun⟩ := hrun.of_bind
  obtain ⟨left, last', hleft, hrun⟩ := hrun.of_bind
  obtain ⟨rfl, rfl⟩ := (runs_left last).unique hleft
  -- no bytes are left behind the node
  obtain ⟨hlast, hrun⟩ := Action.Runs.of_check hrun
  obtain rfl := List.length_eq_zero_iff.mp (Decidable.not_not.mp hlast)
  obtain ⟨heq, -⟩ := (Action.runs_pure (node', ms') []).unique hrun
  obtain ⟨rfl, rfl⟩ := Prod.mk.inj heq
  exact ⟨mid, hmeasures, hnode⟩

/-- A stored page is decoded to a node and the values of its measures if and only if it is what is stored of them. -/
theorem decode_eq_ok_iff (hkey : Inverts Codec.decode Codec.encode P) (hitem : Inverts Codec.decode Codec.encode Q)
    {page : StoredPage} {node : Node K I} {ms : List Int64} : page.decode = .ok (node, ms) ↔
      (ms.length < 2 ^ 16 ∧ node.Storable ∧ node.Each P Q)
        ∧ (ofNode node ms).kind = page.kind ∧ (ofNode node ms).payload = page.payload
        ∧ (page.kind = .leaf → (ofNode node ms).right = page.right) := by
  have hbody := inverts_decodeBody hkey hitem page.kind page.right
  rw [kind_ofNode, right_ofNode, payload_ofNode]
  constructor
  · intro h
    obtain ⟨body, hmeasures, hnode⟩ := exists_runs_of_decode h
    obtain ⟨hpayload, hcount⟩ := inverts_decodeMeasures.canonical hmeasures
    obtain ⟨rfl, hstorable, heach, hkind, hright⟩ := hbody.canonical hnode
    rw [List.append_nil] at hpayload
    exact ⟨⟨hcount, hstorable, heach⟩, hkind, hpayload.symm, hright⟩
  · rintro ⟨⟨hcount, hstorable, heach⟩, hkind, hpayload, hright⟩
    have hmeasures := inverts_decodeMeasures.takes ms hcount
    have hnode := hbody.takes node ⟨hstorable, heach, hkind, hright⟩
    have hrun : Action.Runs (decodePayload page.kind page.right) (encodeMeasures ms ++ (encodeBody node ++ []))
        (node, ms) [] :=
      (hmeasures _).bind ((hnode []).bind ((runs_left []).bind (Action.runs_pure _ _)))
    rw [List.append_nil, hpayload] at hrun
    unfold decode Reader.run
    rw [show decodePayload page.kind page.right page.payload = _ from hrun]

/-- Whatever the shapes of keys and items, decoding and storing undo each other. What is stored of a node is decoded to
it, and a page that is decoded is of one of the two kinds, has a proper shape, and is stored again byte for byte. -/
theorem decode_canonical (key item : Shape) :
    (∀ (node : Node key.Value item.Value) (ms : List Int64), ms.length ≤ 65535 → node.Storable →
      node.Each key.Fits item.Fits → (ofNode node ms).decode = .ok (node, ms))
    ∧ ∀ (page : StoredPage) (node : Node key.Value item.Value) (ms : List Int64), page.decode = .ok (node, ms) →
      (page.kind = .leaf ∨ page.kind = .inner)
        ∧ (ms.length ≤ 65535 ∧ node.Storable ∧ node.Each key.Fits item.Fits)
        ∧ (ofNode node ms).kind = page.kind ∧ (ofNode node ms).payload = page.payload
        ∧ (page.kind = .leaf → (ofNode node ms).right = page.right) := by
  constructor
  · intro node ms hcount hstorable heach
    have hfits : ms.length < 2 ^ 16 ∧ node.Storable ∧ node.Each key.Fits item.Fits :=
      ⟨Nat.lt_succ_of_le hcount, hstorable, heach⟩
    exact (decode_eq_ok_iff key.inverts item.inverts).mpr ⟨hfits, rfl, rfl, fun _ => rfl⟩
  · intro page node ms h
    obtain ⟨⟨hcount, hstorable, heach⟩, hkind, hrest⟩ := (decode_eq_ok_iff key.inverts item.inverts).mp h
    refine ⟨?_, ⟨Nat.le_of_lt_succ hcount, hstorable, heach⟩, hkind, hrest⟩
    rw [← hkind]
    cases node with
    | leaf leaf => exact .inl rfl
    | inner inner => exact .inr rfl

/-- A leaf with one entry: a pair of a text and a truth value as its key, and two bytes as its item. -/
def pairLeaf : Node (Shape.pair .str .bool).Value Shape.bytes.Value :=
  .leaf ⟨[(("ab", true), [7, 8])], some ⟨9⟩⟩

/-- What is stored of it: the measure 5, the number of entries, the text behind its length, the truth value, and the
bytes behind theirs. -/
def pairPage : StoredPage :=
  ⟨.leaf, [1, 0, 5, 0, 0, 0, 0, 0, 0, 0, 1, 0, 0, 0, 2, 0, 0, 0, 97, 98, 1, 2, 0, 0, 0, 7, 8], some ⟨9⟩⟩

theorem decode_canonical_pairLeaf : pairLeaf.Storable ∧ pairLeaf.Each (Shape.pair .str .bool).Fits Shape.bytes.Fits
    ∧ pairPage.decode = .ok (pairLeaf, [5]) ∧ (ofNode pairLeaf [5]).payload = pairPage.payload := by
  have hstorable : pairLeaf.Storable := by
    show 1 < 2 ^ 32
    decide
  have heach : pairLeaf.Each (Shape.pair .str .bool).Fits Shape.bytes.Fits := by
    intro e he
    obtain rfl := List.mem_singleton.mp he
    show ((Text.Utf8.encode "ab").length < 2 ^ 32 ∧ True) ∧ [(7 : UInt8), 8].length < 2 ^ 32
    decide +kernel
  have hstored : ofNode pairLeaf [5] = pairPage := by decide +kernel
  have hdecode := (decode_canonical (.pair .str .bool) .bytes).1 pairLeaf [5] (by decide) hstorable heach
  rw [hstored] at hdecode
  obtain ⟨-, -, -, hpayload, -⟩ := (decode_canonical (.pair .str .bool) .bytes).2 pairPage pairLeaf [5] hdecode
  exact ⟨hstorable, heach, hdecode, hpayload⟩

end StoredPage

end PagedIndex
