import FanoutIndex.Proofs.Scripted.Quiet

namespace FanoutIndex

variable {w n : Nat} {V : Type}

inductive MapCall (V : Type) where
  | put (key : Bytes) (value : V) (guard : GuardOrigin)
  | get (key : Bytes) (guard : GuardOrigin)
  | depthOf (key : Bytes)

inductive MapReply (V : Type) where
  | stored
  | value (value : Option V)
  | depth (depth : Option Nat)

namespace MapCall

def operation : MapCall V → Operation w n V (MapReply V)
  | put key value guard => do
    Operation.put key value guard
    return .stored
  | get key guard => return .value (← Operation.get? key guard)
  | depthOf key => return .depth (← Operation.depthOf? key)

/-- Makes calls one after the other; a call that breaks a contract is answered by the fault. -/
def performEach : List (MapCall V) → Operation w n V (List (Except Fault (MapReply V)))
  | [] => return []
  | call :: rest => do
    let reply ← Operation.outcome call.operation
    return reply :: (← performEach rest)

/-- The entry that a call puts into an index of a key width, unless it is refused. -/
def accepted? (width : Nat) : MapCall V → Option (Bytes × V)
  | put key value .own => if key.length ≤ width then some (key, value) else none
  | _ => none

end MapCall

def entriesOf (width : Nat) (calls : List (MapCall V)) : List (Bytes × V) :=
  calls.filterMap (·.accepted? width)

/-- The value of the last entry whose key is the given one when both are padded. -/
def lastPut (n : Nat) (entries : List (Bytes × V)) (key : Bytes) : Option V :=
  (entries.filter fun entry => padBytes n entry.1 == padBytes n key).getLast?.map (·.2)

/-- The keys of some entries as they are padded. -/
def paddedKeys (n : Nat) (entries : List (Bytes × V)) : Finset Bytes :=
  (entries.map fun entry => padBytes n entry.1).toFinset

namespace MapCall

def IsAnswered (n width : Nat) (entries : List (Bytes × V)) :
    MapCall V → Except Fault (MapReply V) → Prop
  | put key _ .own, reply =>
    if key.length ≤ width then reply = .ok .stored
    else reply = .error (.keyBeyondWidth key.length width)
  | put _ _ .foreign, reply => reply = .error .foreignGuard
  | get key .own, reply =>
    if key.length ≤ width then reply = .ok (.value (lastPut n entries key))
    else reply = .error (.keyBeyondWidth key.length width)
  | get _ .foreign, reply => reply = .error .foreignGuard
  | depthOf key, reply =>
    if key.length ≤ width then
      ∃ depth, reply = .ok (.depth depth) ∧ (depth.isSome ↔ (lastPut n entries key).isSome)
    else reply = .error (.keyBeyondWidth key.length width)

/-- Calls one after the other are answered each by the entries that were put before it. -/
inductive AreAnswered (n width : Nat) :
    List (Bytes × V) → List (MapCall V) → List (Except Fault (MapReply V)) → Prop
  | nil {entries : List (Bytes × V)} : AreAnswered n width entries [] []
  | cons {entries : List (Bytes × V)} {call : MapCall V} {calls : List (MapCall V)}
      {reply : Except Fault (MapReply V)} {replies : List (Except Fault (MapReply V))}
      (first : call.IsAnswered n width entries reply)
      (rest : AreAnswered n width (entries ++ (call.accepted? width).toList) calls replies) :
      AreAnswered n width entries (call :: calls) (reply :: replies)

end MapCall

section LastPut

variable {entries : List (Bytes × V)} {key bytes : Bytes} {value : V}

theorem lastPut_append_singleton : lastPut n (entries ++ [(bytes, value)]) key =
    if padBytes n bytes = padBytes n key then some value else lastPut n entries key := by
  by_cases h : padBytes n bytes = padBytes n key
  · simp [lastPut, h]
  · simp [lastPut, h, beq_eq_false_iff_ne.2 h]

theorem exists_lastPut_iff :
    (∃ v, lastPut n entries key = some v) ↔ padBytes n key ∈ paddedKeys n entries := by
  simp only [lastPut, Option.map_eq_some_iff, paddedKeys, List.mem_toFinset, List.mem_map]
  constructor
  · rintro ⟨v, entry, hlast, _⟩
    obtain ⟨hmem, hkey⟩ := List.mem_filter.1 (List.mem_of_getLast? hlast)
    exact ⟨entry, hmem, by simpa using hkey⟩
  · rintro ⟨entry, hmem, hkey⟩
    have hfilter : entry ∈ entries.filter fun e => padBytes n e.1 == padBytes n key :=
      List.mem_filter.2 ⟨hmem, by simpa using hkey⟩
    obtain ⟨last, hlast⟩ := Option.isSome_iff_exists.1
      (List.getLast?_isSome.2 (List.ne_nil_of_mem hfilter))
    exact ⟨last.2, last, hlast, rfl⟩

/-- Where no two entries have the same key, the value of an entry is that of its key. -/
theorem lastPut_of_mem (distinct : (entries.map fun entry => padBytes n entry.1).Nodup)
    (hmem : (bytes, value) ∈ entries) : lastPut n entries bytes = some value := by
  induction entries using List.reverseRecOn with
  | nil => cases hmem
  | append_singleton entries entry ih =>
    obtain ⟨other, last⟩ := entry
    rw [List.map_append, List.nodup_append] at distinct
    obtain ⟨hdistinct, _, hne⟩ := distinct
    rw [lastPut_append_singleton]
    rcases List.mem_append.1 hmem with hbefore | hlast
    · have hkey := hne _ (List.mem_map_of_mem hbefore) _ (List.mem_singleton_self _)
      rw [if_neg hkey.symm]
      exact ih hdistinct hbefore
    · obtain ⟨rfl, rfl⟩ := Prod.mk.inj (List.mem_singleton.1 hlast)
      rw [if_pos rfl]

theorem lastPut_eq_some_iff (distinct : (entries.map fun entry => padBytes n entry.1).Nodup) :
    lastPut n entries key = some value ↔
      ∃ entry ∈ entries, padBytes n entry.1 = padBytes n key ∧ entry.2 = value := by
  constructor
  · intro h
    obtain ⟨entry, hlast, rfl⟩ := Option.map_eq_some_iff.1 h
    obtain ⟨hmem, hkey⟩ := List.mem_filter.1 (List.mem_of_getLast? hlast)
    exact ⟨entry, hmem, by simpa using hkey, rfl⟩
  · rintro ⟨⟨bytes, value⟩, hmem, hkey, rfl⟩
    have hlast := lastPut_of_mem distinct hmem
    rwa [lastPut, hkey] at hlast

theorem paddedKeys_append_singleton : paddedKeys n (entries ++ [(bytes, value)]) =
    insert (padBytes n bytes) (paddedKeys n entries) := by
  ext key
  simp [paddedKeys]

end LastPut

namespace Tree

/-- A tree holds what some entries leave when they are put one after the other. -/
structure Models (tree : Tree w n V) (entries : List (Bytes × V)) : Prop where
  settled : tree.Settled
  sound : tree.layout.Sound
  holds : ∀ bytes key v, Key.ofBytes n bytes = .ok key →
    (tree.Holds key v ↔ lastPut n entries bytes = some v)
  len : tree.len = (paddedKeys n entries).card

variable {tree : Tree w n V} {entries : List (Bytes × V)} {bytes : Bytes} {key : Key n} {value : V}

theorem models_empty {width : Nat} (h : width ≤ Key.capacity n) :
    (empty width : Tree w n V).Models [] where
  settled := settled_empty h
  sound := by
    rw [layout_empty]
    exact Layout.Sound.bare
  holds := by
    intro bytes key v _
    refine iff_of_false not_holds_empty ?_
    intro h
    cases h
  len := rfl

theorem encode_eq_ok_iff (tree : Tree w n V) (bytes : Bytes) (key : Key n) :
    tree.encode bytes = .ok key ↔ bytes.length ≤ tree.keyWidth ∧ Key.ofBytes n bytes = .ok key := by
  rw [encode]
  split_ifs with h
  · simp [h]
  · simp [h]

theorem encode_of_long (h : ¬bytes.length ≤ tree.keyWidth) :
    tree.encode bytes = .error (.keyBeyondWidth bytes.length tree.keyWidth) := if_neg h

theorem Models.exists_holds_iff (h : tree.Models entries) (accepted : tree.encode bytes = .ok key) :
    (∃ v, tree.Holds key v) ↔ padBytes n bytes ∈ paddedKeys n entries := by
  rw [← exists_lastPut_iff]
  exact exists_congr fun v => h.holds bytes key v ((encode_eq_ok_iff tree bytes key).1 accepted).2

theorem Models.insert (h : tree.Models entries) (hw : 0 < w)
    (accepted : tree.encode bytes = .ok key) (value : V) :
    (tree.insert key value).Models (entries ++ [(bytes, value)]) where
  settled := (Evolves.put .refl accepted).settled h.settled
  sound := sound_insert h.settled.size h.sound
  holds := by
    intro other k v hk
    have hkey := ((encode_eq_ok_iff tree bytes key).1 accepted).2
    have fits : other.length ≤ Key.capacity n := Key.exists_ofBytes_iff.1 ⟨k, hk⟩
    have hsame := Key.ofBytes_eq_iff hkey fits
    rw [hk, Except.ok.injEq, eq_comm (a := padBytes n other)] at hsame
    rw [stores_insert hw h.settled.size h.sound k v, lastPut_append_singleton]
    by_cases heq : k = key
    · rw [if_pos heq, if_pos (hsame.1 heq), Option.some.injEq, eq_comm]
    · rw [if_neg heq, if_neg (fun hpad => heq (hsame.2 hpad))]
      exact h.holds other k v hk
  len := by
    have hpresent := h.exists_holds_iff accepted
    rw [len_insert h.sound, h.len, paddedKeys_append_singleton]
    split_ifs with hif
    · rw [Finset.insert_eq_of_mem (hpresent.1 hif), Nat.add_zero]
    · rw [Finset.card_insert_of_notMem (fun hmem => hif (hpresent.2 hmem))]

end Tree

namespace Operation

variable {tree : Tree w n V} {entries : List (Bytes × V)} {bytes : Bytes}

theorem exec_lookups_of_models (models : tree.Models entries) (short : bytes.length ≤ tree.keyWidth) :
    exec (get? bytes .own) (.quiet tree) = some (.ok (lastPut n entries bytes), .quiet tree) ∧
      ∃ depth, exec (depthOf? bytes) (.quiet tree) = some (.ok depth, .quiet tree) ∧
        (depth.isSome ↔ (lastPut n entries bytes).isSome) := by
  obtain ⟨key, accepted⟩ := Tree.exists_encode models.settled.width short
  obtain ⟨value, depth, hvalue, hget, hdepth⟩ :=
    exec_lookups_quiet models.settled models.sound accepted
  have hlast : value = lastPut n entries bytes := by
    ext v
    rw [hvalue v]
    exact models.holds bytes key v ((Tree.encode_eq_ok_iff tree bytes key).1 accepted).2
  rw [← hlast]
  exact ⟨hget, _, hdepth, by simp⟩

/-- A call returns with its reply, and the tree holds one more entry if it was a put that is not
refused. -/
theorem exec_operation (models : tree.Models entries) (hw : 0 < w) (call : MapCall V) :
    ∃ reply after, exec call.operation (.quiet tree) = some (reply, .quiet after) ∧
      call.IsAnswered n tree.keyWidth entries reply ∧
      after.Models (entries ++ (call.accepted? tree.keyWidth).toList) ∧
      after.keyWidth = tree.keyWidth := by
  have same : tree.Models (entries ++ []) := by rwa [List.append_nil]
  rcases call with ⟨bytes, value, _ | _⟩ | ⟨bytes, _ | _⟩ | ⟨bytes⟩
  case put.own =>
    by_cases hshort : bytes.length ≤ tree.keyWidth
    · obtain ⟨key, accepted⟩ := Tree.exists_encode models.settled.width hshort
      refine ⟨_, _, exec_bind_ok (exec_put_quiet models.settled accepted value), ?_, ?_,
        Tree.keyWidth_insert⟩
      · exact (if_pos hshort).mpr rfl
      · rw [MapCall.accepted?, if_pos hshort]
        exact models.insert hw accepted value
    · refine ⟨_, tree, exec_bind_error (exec_put_refused (Tree.encode_of_long hshort) value), ?_,
        ?_, rfl⟩
      · exact (if_neg hshort).mpr rfl
      · rw [MapCall.accepted?, if_neg hshort]
        exact same
  case put.foreign => exact ⟨_, tree, exec_bind_error (exec_put_foreign _ _ _), rfl, same, rfl⟩
  case get.own =>
    by_cases hshort : bytes.length ≤ tree.keyWidth
    · obtain ⟨hget, _⟩ := exec_lookups_of_models models hshort
      exact ⟨_, tree, exec_bind_ok hget, (if_pos hshort).mpr rfl, same, rfl⟩
    · exact ⟨_, tree, exec_bind_error (exec_get_refused (Tree.encode_of_long hshort)),
        (if_neg hshort).mpr rfl, same, rfl⟩
  case get.foreign => exact ⟨_, tree, exec_bind_error (exec_get_foreign _ _), rfl, same, rfl⟩
  case depthOf =>
    by_cases hshort : bytes.length ≤ tree.keyWidth
    · obtain ⟨_, depth, hdepth, hsome⟩ := exec_lookups_of_models models hshort
      exact ⟨_, tree, exec_bind_ok hdepth, (if_pos hshort).mpr ⟨depth, rfl, hsome⟩, same, rfl⟩
    · exact ⟨_, tree, exec_bind_error (exec_depthOf_refused (Tree.encode_of_long hshort)),
        (if_neg hshort).mpr rfl, same, rfl⟩

theorem exec_performEach (models : tree.Models entries) (hw : 0 < w) (calls : List (MapCall V)) :
    ∃ replies after, exec (MapCall.performEach calls) (.quiet tree) =
        some (.ok replies, .quiet after) ∧
      MapCall.AreAnswered n tree.keyWidth entries calls replies ∧
      after.Models (entries ++ entriesOf tree.keyWidth calls) ∧
      after.keyWidth = tree.keyWidth := by
  induction calls generalizing tree entries with
  | nil => exact ⟨[], tree, rfl, .nil, by simpa [entriesOf] using models, rfl⟩
  | cons call rest ih =>
    obtain ⟨reply, mid, hcall, hreply, hmid, hwidth⟩ := exec_operation models hw call
    obtain ⟨replies, after, hrest, hreplies, hafter, hwidth'⟩ := ih hmid
    rw [hwidth] at hreplies hafter
    refine ⟨reply :: replies, after, ?_, .cons hreply hreplies, ?_, hwidth'.trans hwidth⟩
    · rw [MapCall.performEach, exec_bind_ok (exec_outcome hcall), exec_bind_ok hrest]
      rfl
    · rw [List.append_assoc] at hafter
      cases hentry : call.accepted? tree.keyWidth with
      | none => simpa [entriesOf, hentry] using hafter
      | some entry => simpa [entriesOf, hentry] using hafter

/-- The index is a map. Any calls return, each with the reply that the puts before it give; after
them each key has the value of the last put under the same padded key, it has a depth when it has a
value, and the counter counts the padded keys. -/
theorem calls_refine_map {config : Config} {start : Tree w n V} (hw : 0 < w)
    (built : Tree.ofConfig config = .ok start) (calls : List (MapCall V)) :
    ∃ replies tree,
      exec (MapCall.performEach calls) (.quiet start) = some (.ok replies, .quiet tree) ∧
      MapCall.AreAnswered n start.keyWidth [] calls replies ∧
      (∀ key : Bytes, key.length ≤ start.keyWidth →
        exec (get? key .own) (.quiet tree) =
            some (.ok (lastPut n (entriesOf start.keyWidth calls) key), .quiet tree) ∧
          ∃ depth, exec (depthOf? key) (.quiet tree) = some (.ok depth, .quiet tree) ∧
            (depth.isSome ↔ (lastPut n (entriesOf start.keyWidth calls) key).isSome)) ∧
      tree.len = (paddedKeys n (entriesOf start.keyWidth calls)).card ∧
      (tree.isEmpty = true ↔ tree.len = 0) := by
  obtain ⟨width, hle, rfl⟩ := Tree.eq_empty_of_ofConfig built
  obtain ⟨replies, tree, hcalls, hreplies, models, hwidth⟩ :=
    exec_performEach (Tree.models_empty hle) hw calls
  rw [List.nil_append] at models
  refine ⟨replies, tree, hcalls, hreplies, ?_, models.len, by simp [Tree.isEmpty]⟩
  intro key hshort
  rw [← hwidth] at hshort
  exact exec_lookups_of_models models hshort

theorem calls_refine_map_overwrite :
    ∃ replies tree,
      exec (MapCall.performEach [.put [97] 1 .own, .get [97] .own, .put [97, 0] 2 .own,
        .put [98] 3 .foreign]) (.quiet (Tree.empty 8 : Tree 1 1 Nat)) =
          some (.ok replies, .quiet tree) ∧
      MapCall.AreAnswered 1 8 [] [.put [97] 1 .own, .get [97] .own, .put [97, 0] 2 .own,
        .put [98] 3 .foreign] replies ∧
      (∀ key : Bytes, key.length ≤ 8 →
        exec (get? key .own) (.quiet tree) =
            some (.ok (lastPut 1 [([97], 1), ([97, 0], 2)] key), .quiet tree) ∧
          ∃ depth, exec (depthOf? key) (.quiet tree) = some (.ok depth, .quiet tree) ∧
            (depth.isSome ↔ (lastPut 1 [([97], 1), ([97, 0], 2)] key).isSome)) ∧
      tree.len = (paddedKeys 1 [([97], 1), ([97, 0], 2)]).card ∧
      (tree.isEmpty = true ↔ tree.len = 0) :=
  calls_refine_map (by decide)
    (show Tree.ofConfig ({} : Config) = .ok (Tree.empty 8 : Tree 1 1 Nat) from rfl) _

end Operation

end FanoutIndex
