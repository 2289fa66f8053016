import FanoutIndex.Proofs.Concurrent.Linearization
import FanoutIndex.Proofs.Concurrent.Owners
import FanoutIndex.Proofs.Key.Codec
import FanoutIndex.Proofs.Map.Refinement
import FanoutIndex.Proofs.Key.Codec
import FanoutIndex.Proofs.Map.Refinement

/-!
# Clients that agree on values

Where no two puts give one key different values, no write undoes another. So whatever the order of
the accesses, the index holds the entries of the puts that made their write, and when all clients
are done it holds those of all puts and counts their keys.
-/

namespace FanoutIndex

variable {w n : Nat} {V : Type}

namespace Request

/-- No two of the puts give one key different values. -/
def Agree (requests : List (Request n V)) : Prop :=
  ∀ key v v', .put key v ∈ requests → .put key v' ∈ requests → v = v'

def ofEntry (n : Nat) (entry : Bytes × V) : Request n V := .put (.packed n entry.1) entry.2

variable {entries : List (Bytes × V)} {key : Key n} {value : V}

theorem put_mem_ofEntries : .put key value ∈ entries.map (ofEntry n) ↔
    ∃ entry ∈ entries, Key.packed n entry.1 = key ∧ entry.2 = value := by
  simp [ofEntry]

section Short

variable (short : ∀ entry ∈ entries, entry.1.length ≤ Key.capacity n)

include short

theorem agree_ofEntries (distinct : (entries.map fun entry => padBytes n entry.1).Nodup) :
    Agree (entries.map (ofEntry n)) := by
  intro key v v' h h'
  obtain ⟨entry, hentry, hkey, rfl⟩ := put_mem_ofEntries.1 h
  obtain ⟨other, hother, hkey', rfl⟩ := put_mem_ofEntries.1 h'
  have hpad := (Key.packed_eq_iff (short _ hentry) (short _ hother)).1 (hkey.trans hkey'.symm)
  rw [List.inj_on_of_nodup_map distinct hentry hother hpad]

theorem image_toBytes_ofEntries :
    Key.toBytes '' {key | ∃ value, .put key value ∈ entries.map (ofEntry n)} =
      (paddedKeys n entries : Set Bytes) := by
  ext bytes
  have hmem : bytes ∈ (paddedKeys n entries : Set Bytes) ↔
      ∃ entry ∈ entries, padBytes n entry.1 = bytes := by
    simp [paddedKeys]
  rw [hmem]
  constructor
  · rintro ⟨key, ⟨value, hput⟩, rfl⟩
    obtain ⟨entry, hentry, rfl, _⟩ := put_mem_ofEntries.1 hput
    exact ⟨entry, hentry, (Key.toBytes_packed (short _ hentry)).symm⟩
  · rintro ⟨entry, hentry, rfl⟩
    exact ⟨_, ⟨entry.2, List.mem_map_of_mem hentry⟩, Key.toBytes_packed (short _ hentry)⟩

end Short

end Request

namespace Tree

variable {tree : Tree w n V}

def heldKeys (tree : Tree w n V) : Set (Key n) := {key | ∃ value, tree.Holds key value}

/-- In a sound tree every entry has a key of its own. -/
theorem ncard_heldKeys (sound : tree.layout.Sound) : tree.heldKeys.ncard = tree.entries.ncard := by
  let keyAt (p : Nat × Fin w) : Key n := (tree.node p.1).keys.get p.2
  have hkey {i : Nat} {slot : Fin w} {key : Key n} {value : V} (h : tree.HoldsAt i slot key value) :
      keyAt (i, slot) = key := Node.keys_eq_of_face_key h.face_key
  have himage : tree.heldKeys = keyAt '' tree.entries := by
    ext key
    constructor
    · rintro ⟨value, i, slot, h⟩
      exact ⟨(i, slot), ⟨key, value, h⟩, hkey h⟩
    · rintro ⟨⟨i, slot⟩, ⟨k, value, h⟩, rfl⟩
      exact ⟨value, i, slot, (hkey h).symm ▸ h⟩
  rw [himage]
  apply Set.InjOn.ncard_image
  rintro ⟨i, s⟩ ⟨a, x, hi⟩ ⟨j, t⟩ ⟨b, y, hj⟩ hsame
  obtain rfl : a = b := (hkey hi).symm.trans (hsame.trans (hkey hj))
  obtain ⟨rfl, rfl⟩ := sound.slot_unique hi.1 hj.1 hi.face_key hj.face_key
  rfl

end Tree

namespace Client

variable {client : Client w n V} {r : Nat} {entry : Key n × V}

theorem HasWritten.mem_requests (h : client.HasWritten r entry) :
    .put entry.1 entry.2 ∈ client.requests := by
  rw [requests, List.mem_append, List.mem_append]
  rcases h with ⟨reply, hreply⟩ | ⟨_, stage, htask, _⟩
  · exact .inl (.inl (List.mem_map.2 ⟨_, Array.mem_toList_iff.2 (Array.mem_of_getElem? hreply), rfl⟩))
  · exact .inl (.inr (by simp [htask]))

theorem exists_hasWritten_of_isIdle (idle : client.isIdle = true)
    (h : .put entry.1 entry.2 ∈ client.requests) : ∃ r, client.HasWritten r entry := by
  obtain ⟨htask, htodo⟩ : client.task = none ∧ client.todo = [] := by
    simpa [isIdle] using idle
  rw [requests, htask, htodo] at h
  obtain ⟨⟨_, reply⟩, hmem, rfl⟩ : ∃ p ∈ client.replies.toList, p.1 = .put entry.1 entry.2 := by
    simpa using h
  obtain ⟨r, hr⟩ := Array.getElem?_of_mem (Array.mem_toList_iff.1 hmem)
  exact ⟨r, .inl ⟨reply, hr⟩⟩

end Client

namespace System

def requests (system : System w n V) : List (Request n V) :=
  system.clients.toList.flatMap Client.requests

variable {system start : System w n V} {client : Client w n V} {schedule : List Nat} {c r : Nat}
  {key : Key n} {value : V} {entry : Key n × V}

theorem requests_ofRequests (tree : Tree w n V) (requests : List (List (Request n V))) :
    (ofRequests tree requests).requests = requests.flatten := by
  simp only [System.requests, ofRequests, List.flatMap_map]
  exact List.flatMap_id'

theorem requests_eq_of_clients {after : System w n V}
    (same : ∀ c : Nat, after.clients[c]?.map Client.requests = system.clients[c]?.map Client.requests) :
    after.requests = system.requests := by
  have hlists : after.clients.toList.map Client.requests =
      system.clients.toList.map Client.requests := by
    apply List.ext_getElem?
    intro c
    simpa using same c
  rw [requests, requests, List.flatMap_def, List.flatMap_def, hlists]

theorem mem_requests_of_client (h : system.clients[c]? = some client) {request : Request n V}
    (hmem : request ∈ client.requests) : request ∈ system.requests :=
  List.mem_flatMap.2 ⟨client, Array.mem_toList_iff.2 (Array.mem_of_getElem? h), hmem⟩

theorem HasWritten.mem_requests (h : system.HasWritten c r entry) :
    .put entry.1 entry.2 ∈ system.requests := by
  obtain ⟨client, hclient, hwritten⟩ := h
  exact mem_requests_of_client hclient hwritten.mem_requests

theorem exists_hasWritten_iff_of_isIdle (idle : system.isIdle = true) :
    (∃ c r, system.HasWritten c r entry) ↔ .put entry.1 entry.2 ∈ system.requests := by
  constructor
  · rintro ⟨c, r, h⟩
    exact h.mem_requests
  · intro h
    obtain ⟨client, hclient, hput⟩ := List.mem_flatMap.1 h
    rw [Array.mem_toList_iff] at hclient
    have done : client.isIdle = true := Array.all_eq_true_iff_forall_mem.1 idle client hclient
    obtain ⟨r, hr⟩ := Client.exists_hasWritten_of_isIdle done hput
    obtain ⟨c, hc⟩ := Array.getElem?_of_mem hclient
    exact ⟨c, r, client, hc, hr⟩

theorem task?_of_isIdle (idle : system.isIdle = true) (c : Nat) : system.task? c = none := by
  rw [task?]
  cases hc : system.clients[c]? with
  | none => rfl
  | some client =>
    have done : client.isIdle = true :=
      Array.all_eq_true_iff_forall_mem.1 idle client (Array.mem_of_getElem? hc)
    rw [Client.isIdle, Bool.and_eq_true, Option.isNone_iff_eq_none] at done
    exact done.1

section Run

variable (hw : 0 < w) (wide : w < 2 ^ 29) (ok : start.Ok) (fresh : start.IsFresh)

include wide ok

theorem mem_requests_of_hasWritten_run (h : (start.run schedule).HasWritten c r entry) :
    .put entry.1 entry.2 ∈ start.requests := by
  rw [← requests_eq_of_clients (requests_run wide ok)]
  exact h.mem_requests

include hw fresh

/-- Where the puts agree, the map holds what was written. -/
theorem contents_run_of_agree (agree : Request.Agree start.requests)
    (bare : ∀ key, start.tree.contents key = none) :
    (start.run schedule).tree.contents key = some value ↔
      ∃ c r, (start.run schedule).HasWritten c r (key, value) := by
  induction schedule using List.reverseRecOn with
  | nil =>
    rw [run_nil, bare]
    simp [fresh.not_hasWritten]
  | append_singleton schedule d ih =>
    have hstep (c r : Nat) (entry : Key n × V) :
        (start.run (schedule ++ [d])).HasWritten c r entry ↔ _ := hasWritten_run_snoc hw wide ok
    rw [contents_run_snoc hw wide ok]
    by_cases hwrites : ∃ r, (start.run schedule).Writes d r (key, value)
    · obtain ⟨r, hwrites⟩ := hwrites
      rw [hwrites.2]
      exact iff_of_true (Function.update_self ..) ⟨d, r, (hstep d r _).2 (.inr ⟨rfl, hwrites⟩)⟩
    · have hsame : (∃ c r, (start.run (schedule ++ [d])).HasWritten c r (key, value)) ↔
          ∃ c r, (start.run schedule).HasWritten c r (key, value) := by
        refine exists_congr fun c => exists_congr fun r => (hstep c r _).trans (or_iff_left ?_)
        rintro ⟨rfl, h⟩
        exact hwrites ⟨r, h⟩
      rw [hsame, ← ih]
      cases heffect : (start.run schedule).effect? d with
      | none => rfl
      | some other =>
        obtain ⟨r, hother⟩ := exists_writes_of_effect? heffect
        obtain ⟨k, v⟩ := other
        by_cases hkey : key = k
        · -- The key gets another value, so this one was not there: no two puts give it both.
          subst hkey
          have hv : v ≠ value := by
            rintro rfl
            exact hwrites ⟨r, hother⟩
          refine iff_of_false (by simpa using hv) fun hold => ?_
          obtain ⟨c, r', hold⟩ := ih.1 hold
          have written := (hstep d r _).2 (.inr ⟨rfl, hother⟩)
          exact hv (agree key v value (mem_requests_of_hasWritten_run wide ok written)
            (mem_requests_of_hasWritten_run wide ok hold))
        · simp only [Function.update_of_ne hkey]

variable (counted : start.Counted) (agree : Request.Agree start.requests)
  (bare : ∀ key, start.tree.contents key = none)
  (idle : (start.run schedule).isIdle = true)

include agree bare idle

/-- Where the puts agree, the index holds all their entries when the clients are done. -/
theorem holds_run_of_isIdle :
    (start.run schedule).tree.Holds key value ↔ .put key value ∈ start.requests := by
  rw [← Tree.contents_eq_some_iff (ok.run wide schedule).wellformed.sound,
    contents_run_of_agree hw wide ok fresh agree bare, exists_hasWritten_iff_of_isIdle idle,
    requests_eq_of_clients (requests_run wide ok)]

include counted

theorem len_run_of_isIdle :
    (start.run schedule).tree.len = {key | ∃ value, .put key value ∈ start.requests}.ncard := by
  have hkeys : (start.run schedule).tree.heldKeys =
      {key | ∃ value, .put key value ∈ start.requests} := by
    ext key
    exact exists_congr fun value => holds_run_of_isIdle hw wide ok fresh agree bare idle
  have hcounts := (linearizes hw wide ok fresh counted schedule).counts (task?_of_isIdle idle)
  rw [← hkeys, Tree.ncard_heldKeys (ok.run wide schedule).wellformed.sound, hcounts.1]

end Run

section Entries

variable {width : Nat} {requests : List (List (Request n V))} {entries : List (Bytes × V)}

/-- Clients that put entries with distinct keys on an empty index leave the map of these entries
when all of them are done. -/
theorem models_run (hw : 0 < w) (wide : w < 2 ^ 29) (hle : width ≤ Key.capacity n)
    (puts : requests.flatten = entries.map (Request.ofEntry n))
    (short : ∀ entry ∈ entries, entry.1.length ≤ Key.capacity n)
    (distinct : (entries.map fun entry => padBytes n entry.1).Nodup)
    (idle : ((ofRequests (Tree.empty width : Tree w n V) requests).run schedule).isIdle = true) :
    ((ofRequests (Tree.empty width : Tree w n V) requests).run schedule).tree.Models entries := by
  have ok := ok_ofRequests (w := w) width requests
  have fresh := isFresh_ofRequests (Tree.empty width : Tree w n V) requests
  have counted := counted_ofRequests (w := w) width requests
  have hrequests := (requests_ofRequests (Tree.empty width : Tree w n V) requests).trans puts
  have agree : Request.Agree (ofRequests (Tree.empty width : Tree w n V) requests).requests := by
    rw [hrequests]
    exact Request.agree_ofEntries short distinct
  have bare (key : Key n) : (Tree.empty width : Tree w n V).contents key = none := by
    rw [Option.eq_none_iff_forall_ne_some]
    intro v h
    exact Tree.not_holds_empty ((Tree.contents_eq_some_iff ok.wellformed.sound).1 h)
  refine ⟨settled_run wide ok (Tree.settled_empty hle) (task?_of_isIdle idle),
    (ok.run wide schedule).wellformed.sound, ?_, ?_⟩
  · intro bytes key v hkey
    have fits := Key.exists_ofBytes_iff.1 ⟨key, hkey⟩
    rw [Key.ofBytes_eq_ok fits] at hkey
    obtain rfl := Except.ok.inj hkey
    rw [holds_run_of_isIdle hw wide ok fresh agree bare idle, hrequests,
      Request.put_mem_ofEntries, lastPut_eq_some_iff distinct]
    refine exists_congr fun entry => and_congr_right fun hentry => ?_
    rw [Key.packed_eq_iff (short _ hentry) fits]
  · rw [len_run_of_isIdle hw wide ok fresh counted agree bare idle, hrequests,
      ← Set.ncard_image_of_injective _ Key.toBytes_injective,
      Request.image_toBytes_ofEntries short, Set.ncard_coe_finset]

end Entries

end System

end FanoutIndex
