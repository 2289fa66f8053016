import FanoutIndex.Load.Report
import FanoutIndex.Proofs.Concurrent.Agreeing
import FanoutIndex.Proofs.Load.Numbers
import FanoutIndex.Proofs.Map.Sequences

/-!
# Verdicts on loads

The numbers of a load are distinct and so are their keys, so an index holds each number under its
own key when all of them were put, in whatever order that was. So no load fails that can be carried
out.
-/

namespace FanoutIndex

namespace Operation

variable {w n : Nat} {V α β : Type} {run : Run w n V}

theorem exec_mapM_ok {items : List α} {look : α → Operation w n V β} {tell : α → β}
    (each : ∀ a ∈ items, exec (look a) run = some (.ok (tell a), run)) :
    exec (items.mapM look) run = some (.ok (items.map tell), run) := by
  induction items with
  | nil => rfl
  | cons a rest ih =>
    rw [List.forall_mem_cons] at each
    rw [List.mapM_cons, exec_bind_ok each.1, exec_bind_ok (ih each.2)]
    rfl

end Operation

namespace Load

open Operation

def entriesFor (numbers : List UInt64) : List (Bytes × UInt64) :=
  numbers.map fun m => (keyFor m, m)

theorem fill_eq_putEach (numbers : List UInt64) : fill numbers = putEach (entriesFor numbers) := by
  rw [fill, putEach, entriesFor, List.forM_eq_forM, List.forM_eq_forM, List.forM_map]

theorem nodup_padBytes_keyFor {n : Nat} {numbers : List UInt64} (distinct : numbers.Nodup) :
    ((entriesFor numbers).map fun entry => padBytes n entry.1).Nodup := by
  rw [entriesFor, List.map_map]
  refine distinct.map ?_
  intro a b h
  exact keyFor_injective (eq_of_padBytes_eq ((length_keyFor a).trans (length_keyFor b).symm) h)

theorem length_le_of_mem_entriesFor {width : Nat} {numbers : List UInt64}
    (wide : bytesPerWord ≤ width) : ∀ entry ∈ entriesFor numbers, entry.1.length ≤ width := by
  intro entry hmem
  obtain ⟨m, _, rfl⟩ := List.mem_map.1 hmem
  exact wide

theorem perform_of_exec {α : Type} {index after : Index} {action : Action α} {a : α}
    (h : exec action (.quiet index) = some (.ok a, .quiet after)) :
    perform index action = some (.ok (a, after)) := by
  rw [perform, h]
  rfl

/-- An index that holds each of some distinct numbers under its key, and nothing else. -/
structure Loaded (index : Index) (numbers : List UInt64) : Prop where
  models : index.Models (entriesFor numbers)
  distinct : numbers.Nodup
  wide : bytesPerWord ≤ index.keyWidth

theorem exists_loaded {width : Nat} {numbers : List UInt64} (hle : width ≤ Key.capacity defaultWords)
    (wide : bytesPerWord ≤ width) (distinct : numbers.Nodup) :
    ∃ index, perform (.empty width) (fill numbers) = some (.ok ((), index)) ∧
      Loaded index numbers := by
  obtain ⟨index, hputs, models, hwidth⟩ := exec_putEach_keeps
    (P := fun index entries => index.Models entries ∧ index.keyWidth = width)
    (fun h => h.1.settled)
    (fun value h accepted => ⟨h.1.insert (by decide) accepted value, Tree.keyWidth_insert.trans h.2⟩)
    (⟨Tree.models_empty hle, rfl⟩ : (Tree.empty width : Index).Models [] ∧ _)
    (length_le_of_mem_entriesFor wide)
  rw [← fill_eq_putEach] at hputs
  exact ⟨index, perform_of_exec hputs, models, distinct, wide.trans hwidth.ge⟩

/-- Clients that put distinct numbers at once leave all of them when they are done. -/
theorem loaded_run {width : Nat} {numbers : List UInt64} {schedule : List Nat}
    {requests : List (List (Request defaultWords UInt64))}
    (hle : width ≤ Key.capacity defaultWords) (wide : bytesPerWord ≤ width)
    (distinct : numbers.Nodup)
    (puts : requests.flatten = (entriesFor numbers).map (Request.ofEntry defaultWords))
    (idle : ((System.ofRequests (.empty width : Index) requests).run schedule).isIdle = true) :
    Loaded ((System.ofRequests (.empty width : Index) requests).run schedule).tree numbers where
  models := System.models_run (by decide) (by decide) hle puts
    (length_le_of_mem_entriesFor (wide.trans hle)) (nodup_padBytes_keyFor distinct) idle
  distinct := distinct
  wide := by
    rw [System.keyWidth_run]
    exact wide

section Loaded

variable {index : Index} {numbers : List UInt64} (loaded : Loaded index numbers)

include loaded

theorem Loaded.exec_get {m : UInt64} (hm : m ∈ numbers) :
    exec (get? (keyFor m) .own) (.quiet index) = some (.ok (some m), .quiet index) := by
  have hlast : lastPut defaultWords (entriesFor numbers) (keyFor m) = some m :=
    lastPut_of_mem (nodup_padBytes_keyFor loaded.distinct)
      (List.mem_map_of_mem (f := fun m => (keyFor m, m)) hm)
  have hshort := (length_keyFor m).le.trans loaded.wide
  rw [(exec_lookups_of_models loaded.models hshort).1, hlast]

theorem Loaded.len : index.len = numbers.length := by
  have hcard := List.toFinset_card_of_nodup
    (nodup_padBytes_keyFor (n := defaultWords) loaded.distinct)
  rw [loaded.models.len, paddedKeys, hcard, List.length_map, entriesFor, List.length_map]

theorem Loaded.perform_countMissing {wanted : List UInt64} (held : ∀ m ∈ wanted, m ∈ numbers) :
    perform index (countMissing wanted) = some (.ok (0, index)) := by
  have hfound : exec (wanted.mapM fun m => return (← get? (keyFor m) .own) == some m)
      (.quiet index) = some (.ok (wanted.map fun _ => true), .quiet index) := by
    apply exec_mapM_ok
    intro m hm
    rw [exec_bind_ok (loaded.exec_get (held m hm)), beq_self_eq_true]
    rfl
  apply perform_of_exec
  rw [countMissing, exec_bind_ok hfound]
  simp

theorem Loaded.verdict : verdict index 0 numbers.length = .ok () := by
  rw [Load.verdict, Tree.check_eq_none loaded.models.sound]
  simp [loaded.len, bind, Except.bind, Except.mapError, pure, Except.pure]

end Loaded

end Load

namespace LoadPlan

open Operation

def requests (plan : LoadPlan) (index : Load.Index) :
    Except Fault (List (List (Request defaultWords UInt64))) :=
  (List.range plan.clients).mapM fun t => (plan.numbersOf t).mapM fun m => do
    return .put (← index.encode (Load.keyFor m)) m

/-- A load goes well on an index: each number is found under its own key, the counter counts all of
them, and the check finds nothing. -/
structure Passes (plan : LoadPlan) (index : Load.Index) : Prop where
  found : ∀ m ∈ plan.numbers,
    exec (get? (Load.keyFor m) .own) (.quiet index) = some (.ok (some m), .quiet index)
  len : index.len = plan.total
  sound : index.check = .ok none
  missing : Load.perform index (Load.countMissing plan.numbers) = some (.ok (0, index))
  verdict : (LoadReport.ofIndex plan index 0).verdict = .ok ()

variable {plan : LoadPlan}

/-- Keys of numbers are never refused where there is room for a word. -/
theorem requests_eq {index : Load.Index} (hle : index.keyWidth ≤ Key.capacity defaultWords)
    (wide : bytesPerWord ≤ index.keyWidth) : plan.requests index = .ok ((List.range plan.clients).map
      fun t => (Load.entriesFor (plan.numbersOf t)).map (Request.ofEntry defaultWords)) := by
  have hencode (m : UInt64) : index.encode (Load.keyFor m) =
      .ok (.packed defaultWords (Load.keyFor m)) :=
    (Tree.encode_eq_ok_iff index _ _).2 ⟨wide, Key.ofBytes_eq_ok (wide.trans hle)⟩
  have hput (m : UInt64) : (do return Request.put (← index.encode (Load.keyFor m)) m) =
      (Except.ok (Request.ofEntry defaultWords (Load.keyFor m, m)) : Except Fault _) := by
    rw [hencode]
    rfl
  have hmine (numbers : List UInt64) :
      (numbers.mapM fun m => do return Request.put (← index.encode (Load.keyFor m)) m) =
        (Except.ok ((Load.entriesFor numbers).map (Request.ofEntry defaultWords)) :
          Except Fault _) := by
    simp only [hput, Load.entriesFor, List.map_map]
    exact List.mapM_pure
  simp only [requests, hmine]
  exact List.mapM_pure

theorem flatten_requests (plan : LoadPlan) : ((List.range plan.clients).map fun t =>
    (Load.entriesFor (plan.numbersOf t)).map (Request.ofEntry defaultWords)).flatten =
      (Load.entriesFor plan.numbers).map (Request.ofEntry defaultWords) := by
  simp [numbers, Load.entriesFor, List.flatMap_def, List.map_flatten, Function.comp_def]

theorem passes_of_loaded {index : Load.Index} {numbers : List UInt64}
    (loaded : Load.Loaded index numbers) (perm : numbers.Perm plan.numbers)
    (hlength : plan.numbers.length = plan.total) : plan.Passes index := by
  have held : ∀ m ∈ plan.numbers, m ∈ numbers := fun m hm => perm.mem_iff.2 hm
  have hlen : numbers.length = plan.total := perm.length_eq.trans hlength
  refine ⟨fun m hm => loaded.exec_get (held m hm), loaded.len.trans hlen,
    Tree.check_eq_none loaded.models.sound, loaded.perform_countMissing held, ?_⟩
  rw [LoadReport.ofIndex, ← hlen]
  exact loaded.verdict

/-- The plan that arguments and an environment make which name no more keys than 64 bits count, and
a key width that holds a number. -/
theorem ofArguments_eq_ok {arguments : List String} {environment : Option ByteArray}
    {first : Nat} {config : Config} {plan : LoadPlan}
    (hfirst : Load.argument arguments 1 Load.defaultClients = .ok first)
    (hclients : plan.clients = max 1 first)
    (hshare : Load.argument arguments 2 Load.defaultShare = .ok plan.share)
    (htotal : Load.total plan.clients plan.share = .ok plan.total)
    (hconfig : Config.ofEnvironment environment = .ok config)
    (hwidth : config.resolveKeyWidth (Key.capacity defaultWords) = .ok plan.keyWidth)
    (wide : bytesPerWord ≤ plan.keyWidth) : ofArguments arguments environment = .ok plan := by
  obtain ⟨clients, share, total, keyWidth⟩ := plan
  subst hclients
  simp [ofArguments, hfirst, hshare, htotal, hconfig, hwidth, Nat.not_lt.2 wide, bind, Except.bind,
    pure, Except.pure, Except.mapError]

/-- No load fails that can be carried out. The number of keys is refused exactly if 64 bits do not
count them. Otherwise the numbers of the clients are those below that number, each of them once, and
their keys are distinct. So when an empty index for wide enough keys was filled, in any order or by
clients at once in any order of their accesses, the load goes well on it; and so does the load that
arguments and an environment ask for that can be read. -/
theorem loads_do_not_fail (plan : LoadPlan) :
    ((∃ cause, Load.total plan.clients plan.share = .error cause) ↔
      2 ^ 64 ≤ plan.clients * plan.share) ∧
    (Load.total plan.clients plan.share = .ok plan.total →
      plan.total = plan.clients * plan.share ∧
      (∀ t < plan.clients, ∀ i < plan.share, t * plan.share + i < 2 ^ 64) ∧
      Set.BijOn (fun p : Nat × Nat => p.1 * plan.share + p.2)
        {p | p.1 < plan.clients ∧ p.2 < plan.share} (Set.Iio plan.total) ∧
      Set.InjOn (fun m : Nat => Load.keyFor m.toUInt64) (Set.Iio plan.total) ∧
      ∀ (config : Config) (start : Load.Index), Tree.ofConfig config = .ok start →
        start.keyWidth = plan.keyWidth → 8 ≤ plan.keyWidth →
        (∀ order, order.Perm plan.numbers →
          ∃ index, Load.perform start (Load.fill order) = some (.ok ((), index)) ∧
            plan.Passes index) ∧
        (∃ requests, plan.requests start = .ok requests ∧
          ∀ schedule, ((System.ofRequests start requests).run schedule).isIdle = true →
            plan.Passes ((System.ofRequests start requests).run schedule).tree) ∧
        ∀ arguments environment first,
          Load.argument arguments 1 Load.defaultClients = .ok first → plan.clients = max 1 first →
          Load.argument arguments 2 Load.defaultShare = .ok plan.share →
          Config.ofEnvironment environment = .ok config →
          ∃ report, ofArguments arguments environment = .ok plan ∧
            LoadReport.ofPlan plan = some (.ok report) ∧ report.verdict = .ok ()) := by
  constructor
  · simp [Load.total_eq_error_iff]
  · intro htotal
    obtain ⟨hlt, hplan⟩ := Load.total_eq_ok_iff.1 htotal
    have distinct := plan.nodup_numbers hlt.le
    have hlength : plan.numbers.length = plan.total := plan.length_numbers.trans hplan.symm
    refine ⟨hplan, ?_, hplan ▸ plan.bijOn_number, ?_, ?_⟩
    · intro t ht i hi
      exact (plan.bijOn_number.mapsTo (x := (t, i)) ⟨ht, hi⟩).trans hlt
    · refine Load.keyFor_injective.comp_injOn (injOn_toUInt64.mono ?_)
      exact Set.Iio_subset_Iio (hplan ▸ hlt.le)
    · intro config start built hwidth wide
      obtain ⟨width, hresolve, rfl⟩ := Tree.ofConfig_eq_ok_iff.1 built
      obtain rfl : width = plan.keyWidth := hwidth
      have hle := Config.resolveKeyWidth_le hresolve
      refine ⟨?_, ?_, ?_⟩
      · intro order perm
        obtain ⟨index, hfill, loaded⟩ := Load.exists_loaded hle wide (perm.nodup_iff.2 distinct)
        exact ⟨index, hfill, passes_of_loaded loaded perm hlength⟩
      · refine ⟨_, requests_eq hle wide, fun schedule idle => ?_⟩
        have loaded := Load.loaded_run hle wide distinct plan.flatten_requests idle
        exact passes_of_loaded loaded (.refl _) hlength
      · intro arguments environment first hfirst hclients hshare hconfig
        obtain ⟨index, hfill, loaded⟩ := Load.exists_loaded hle wide distinct
        have passes := passes_of_loaded loaded (.refl _) hlength
        refine ⟨LoadReport.ofIndex plan index 0,
          ofArguments_eq_ok hfirst hclients hshare htotal hconfig hresolve wide, ?_, passes.verdict⟩
        rw [LoadReport.ofPlan, hfill]
        simp only [passes.missing]

/-- Two clients with two numbers each, put in reverse order, or by both at once. -/
theorem loads_do_not_fail_reversed :
    (∃ index, Load.perform (.empty 16) (Load.fill [3, 2, 1, 0]) = some (.ok ((), index)) ∧
      Passes ⟨2, 2, 4, 16⟩ index) ∧
    (∃ requests, LoadPlan.requests ⟨2, 2, 4, 16⟩ (.empty 16) = .ok requests ∧
      Passes ⟨2, 2, 4, 16⟩
        ((System.ofRequests (.empty 16) requests).run ((List.range 150).map (· % 2))).tree) ∧
    ∃ report, ofArguments ["2", "+2"] none = .ok ⟨2, 2, 4, 16⟩ ∧
      LoadReport.ofPlan ⟨2, 2, 4, 16⟩ = some (.ok report) ∧ report.verdict = .ok () := by
  have built : Tree.ofConfig ({} : Config) = .ok (Tree.empty 16 : Load.Index) := rfl
  obtain ⟨_, hload⟩ := loads_do_not_fail ⟨2, 2, 4, 16⟩
  obtain ⟨_, _, _, _, hindex⟩ := hload rfl
  obtain ⟨horders, ⟨requests, hrequests, hclients⟩, hprogram⟩ := hindex {} _ built rfl (by decide)
  have hputs : LoadPlan.requests ⟨2, 2, 4, 16⟩ (.empty 16) =
      .ok [[.put ⟨#v[0, 0]⟩ 0, .put ⟨#v[Load.mix, 0]⟩ 1],
        [.put ⟨#v[2 * Load.mix, 0]⟩ 2, .put ⟨#v[3 * Load.mix, 0]⟩ 3]] := by
    rfl
  obtain rfl := Except.ok.inj (hputs.symm.trans hrequests)
  refine ⟨horders [3, 2, 1, 0] (by decide), ⟨_, hputs, hclients _ ?_⟩,
    hprogram ["2", "+2"] none 2 (by decide) (by decide) (by decide) rfl⟩
  decide +kernel

end LoadPlan

end FanoutIndex
