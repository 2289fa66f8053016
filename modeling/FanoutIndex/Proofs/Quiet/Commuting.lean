import FanoutIndex.Proofs.Quiet.Searches
import FanoutIndex.Proofs.Scripted.Quiet
import FanoutIndex.Proofs.Tree.Commute

namespace FanoutIndex

variable {w n : Nat} {V : Type}

/-- Two writers want a vacant slot of the same node, or the same vacant link of it. -/
def Target.Competes (first second : Target w) : Prop :=
  first.lock = second.lock ∧ first.place.Competes second.place

namespace Operation

open Run

variable {tree : Tree w n V} {a b : Key n} {first second : Bytes}

theorem exec_findLocked_target (settled : tree.Settled) (key : Key n) :
    ∃ held, exec (scripted fun react => findLocked react key) (.quiet tree) =
      some (.ok ⟨⟨(tree.target key).1⟩, (tree.target key).2, (tree.trail key).length⟩, held) := by
  rw [exec_scripted]
  exact ⟨_, exec_findLocked_still (.quiet tree) rfl settled.size (settled.rest.clear key)⟩

theorem exec_put_put (settled : tree.Settled) (accepted : tree.encode first = .ok a)
    (accepted' : tree.encode second = .ok b) (x y : V) :
    exec (do put first x .own; put second y .own) (.quiet tree) =
      some (.ok (), .quiet ((tree.insert a x).insert b y)) := by
  have hafter : (tree.insert a x).Settled := (Tree.Evolves.put .refl accepted).settled settled
  refine (exec_bind_ok (exec_put_quiet settled accepted x)).trans (exec_put_quiet hafter ?_ y)
  rwa [Tree.encode_insert]

/-- The trees after two puts of different keys in one order and in the other agree if and only if
their writers do not compete in the tree before. -/
theorem puts_commute_iff (built : tree.Built) (hw : 0 < w) (accepted : tree.encode first = .ok a)
    (accepted' : tree.encode second = .ok b) (hne : a ≠ b) (x y : V) :
    ∃ (one other : Target w) (held held' : Run w n V) (there back : Tree w n V),
      exec (scripted fun react => findLocked react a) (.quiet tree) = some (.ok one, held) ∧
      exec (scripted fun react => findLocked react b) (.quiet tree) = some (.ok other, held') ∧
      exec (do put first x .own; put second y .own) (.quiet tree) =
        some (.ok (), .quiet there) ∧
      exec (do put second y .own; put first x .own) (.quiet tree) =
        some (.ok (), .quiet back) ∧
      (there.Agree back ↔ ¬one.Competes other) := by
  have settled := built.settled
  obtain ⟨held, hfind⟩ := exec_findLocked_target settled a
  obtain ⟨held', hfind'⟩ := exec_findLocked_target settled b
  refine ⟨_, _, held, held', _, _, hfind, hfind', exec_put_put settled accepted accepted' x y,
    exec_put_put settled accepted' accepted y x, ?_, ?_⟩
  · rintro agree ⟨hsame, competes⟩
    exact Tree.not_agree_insert_insert hw settled.size hne (congrArg Lock.node hsame) competes agree
  · intro free
    exact Tree.agree_insert_insert settled.size hne fun h competes =>
      free ⟨congrArg Lock.mk h, competes⟩

/-- Two new keys of an empty index compete for the first slot of its root. When a key between them
has filled the root, they go under different links of it. -/
theorem puts_compete_then_commute :
    (∃ (one other : Target 1) (held held' : Run 1 1 Nat) (there back : Tree 1 1 Nat),
      exec (scripted fun react => findLocked react ⟨#v[0x6100000000000000]⟩)
        (.quiet (.empty 8)) = some (.ok one, held) ∧
      exec (scripted fun react => findLocked react ⟨#v[0x6300000000000000]⟩)
        (.quiet (.empty 8)) = some (.ok other, held') ∧
      exec (do put [97] 1 .own; put [99] 2 .own) (.quiet (.empty 8)) =
        some (.ok (), .quiet there) ∧
      exec (do put [99] 2 .own; put [97] 1 .own) (.quiet (.empty 8)) =
        some (.ok (), .quiet back) ∧
      one = ⟨⟨root⟩, .fill 0, 1⟩ ∧ other = ⟨⟨root⟩, .fill 0, 1⟩ ∧ ¬there.Agree back) ∧
    ∃ (tree : Tree 1 1 Nat) (one other : Target 1) (held held' : Run 1 1 Nat)
        (there back : Tree 1 1 Nat),
      exec (put [98] 0 .own) (.quiet (.empty 8)) = some (.ok (), .quiet tree) ∧
      exec (scripted fun react => findLocked react ⟨#v[0x6100000000000000]⟩) (.quiet tree) =
        some (.ok one, held) ∧
      exec (scripted fun react => findLocked react ⟨#v[0x6300000000000000]⟩) (.quiet tree) =
        some (.ok other, held') ∧
      exec (do put [97] 1 .own; put [99] 2 .own) (.quiet tree) = some (.ok (), .quiet there) ∧
      exec (do put [99] 2 .own; put [97] 1 .own) (.quiet tree) = some (.ok (), .quiet back) ∧
      one = ⟨⟨root⟩, .attach 0, 1⟩ ∧ other = ⟨⟨root⟩, .attach 1, 1⟩ ∧ there.Agree back := by
  have built : (Tree.empty 8 : Tree 1 1 Nat).Built :=
    .empty (show Tree.ofConfig ({} : Config) = .ok (Tree.empty 8) from rfl)
  have accepted : (Tree.empty 8 : Tree 1 1 Nat).encode [97] = .ok ⟨#v[0x6100000000000000]⟩ := rfl
  have accepted' : (Tree.empty 8 : Tree 1 1 Nat).encode [99] = .ok ⟨#v[0x6300000000000000]⟩ := rfl
  constructor
  · obtain ⟨one, other, held, held', there, back, hone, hother, hthere, hback, hagree⟩ :=
      puts_commute_iff built (by decide) accepted accepted' (by decide) 1 2
    -- The searches are evaluated; whether the trees agree is what the theorem tells.
    have hplace := congrArg (Option.map Prod.fst) hone
    have hplace' := congrArg (Option.map Prod.fst) hother
    change some (Except.ok ⟨⟨root⟩, .fill 0, 1⟩) = some (.ok one) at hplace
    change some (Except.ok ⟨⟨root⟩, .fill 0, 1⟩) = some (.ok other) at hplace'
    cases hplace
    cases hplace'
    exact ⟨_, _, held, held', there, back, hone, hother, hthere, hback, rfl, rfl,
      fun agree => hagree.1 agree ⟨rfl, trivial⟩⟩
  · have hput : exec (put [98] 0 .own) (.quiet (.empty 8)) = some (.ok (), .quiet
        ((Tree.empty 8 : Tree 1 1 Nat).change root (.fill 0) ⟨#v[0x6200000000000000]⟩ 0)) := rfl
    have full := Tree.Built.put (show (Run.quiet (.empty 8) : Run 1 1 Nat).tree.Built from built)
      (fun _ h => absurd h List.not_mem_nil) (by decide) hput
    obtain ⟨one, other, held, held', there, back, hone, hother, hthere, hback, hagree⟩ :=
      puts_commute_iff full (by decide) accepted accepted' (by decide) 1 2
    have hplace := congrArg (Option.map Prod.fst) hone
    have hplace' := congrArg (Option.map Prod.fst) hother
    change some (Except.ok ⟨⟨root⟩, .attach 0, 1⟩) = some (.ok one) at hplace
    change some (Except.ok ⟨⟨root⟩, .attach 1, 1⟩) = some (.ok other) at hplace'
    cases hplace
    cases hplace'
    exact ⟨_, _, _, held, held', there, back, hput, hone, hother, hthere, hback, rfl, rfl,
      hagree.2 fun competes => (show (0 : Fin 2) ≠ 1 by decide) competes.2⟩

end Operation

end FanoutIndex
