import Efis.Consensus.Following
import Efis.Rpc.Server

/-!
# The leader gate

What `rpc_impl` puts in front of a method that is marked `requires_leader`.  The check reads two
statics of the process, which `Consensus::new` sets: the id of the node, and the leader as the node
knows it.  The request is not looked at, and not even decoded, unless the check passes.

On a node of a cluster the check passes exactly if the node is a leader (`leader_gate_exact`).  A
process that has no consensus never sets the statics, and then it never passes
(`Statics.isLeader_unset`).
-/

set_option autoImplicit false

namespace Efis

/-! ## The statics -/

/-- `LEADER_ID` and `NODE_ID`, each `none` until it is set. -/
structure Statics where
  leaderCell : Option (Option String)
  nodeCell : Option String
  deriving DecidableEq

namespace Statics

/-- The statics of a process that runs without consensus. -/
def unset : Statics := ⟨none, none⟩

/-- `ConsensusHandle::leader_id`. -/
def leaderId (s : Statics) : Option String := s.leaderCell.join

/-- `ConsensusHandle::node_id`, which is empty by default. -/
def nodeId (s : Statics) : String := s.nodeCell.getD ""

/-- `ConsensusHandle::is_leader`. -/
def isLeader (s : Statics) : Bool := decide (s.leaderId = some s.nodeId)

theorem isLeader_unset : unset.isLeader = false := rfl

end Statics

/-- The statics of the process a node runs in. -/
def Consensus.statics {σ C P : Type} (m : Consensus σ C P) : Statics := ⟨some m.leaderId, some m.id⟩

/-! ## The check -/

/-- The error of a method that is refused. -/
def notLeader (s : Statics) : RpcError := .notLeader (s.leaderId.getD "unknown")

/-- A method as `rpc_impl` registers it.  `fail` is how an error is returned. -/
def register {ρ : Type} (requiresLeader : Bool) (fail : RpcError → ρ) (body : List Char → ρ)
    (s : Statics) (req : List Char) : ρ :=
  if requiresLeader && !s.isLeader then fail (notLeader s) else body req

section

variable {ρ : Type} (fail : RpcError → ρ) (body : List Char → ρ) (s : Statics) (req : List Char)

@[simp] theorem register_false : register false fail body s req = body req := rfl

theorem register_of_isLeader (h : s.isLeader = true) (requiresLeader : Bool) :
    register requiresLeader fail body s req = body req := by
  rw [register, h, Bool.not_true, Bool.and_false]
  rfl

theorem register_of_not_isLeader (h : s.isLeader = false) :
    register true fail body s req = fail (notLeader s) := by
  rw [register, h]
  rfl

end

variable {n : ℕ} {σ C P : Type}

theorem Hinted.isLeader_iff {m : Consensus σ C P} (h : Hinted m) :
    m.statics.isLeader = true ↔ m.state = .leader := by
  rw [Statics.isLeader, decide_eq_true_iff]
  exact h.symm

/-- **The leader gate is exact.**  In every state of a run, crashes and restarts included, the check
passes on a node if and only if that node is a leader.  So a method that requires it is entered on a
leader, and on any other node returns the error, whatever its body is. -/
theorem leader_gate_exact [Storage σ C] (cfg : Config n σ C)
    {ok : Cluster n σ C → Label n σ C → Prop} {r : List (Cluster n σ C)}
    (h : Cluster.Run cfg ok r) {c : Cluster n σ C} (hc : c ∈ r) (v : Fin n) :
    ((c.nodes v).statics.isLeader = true ↔ (c.nodes v).state = .leader) ∧
      ∀ (ρ : Type) (fail : RpcError → ρ) (body : List Char → ρ) (req : List Char),
        ((c.nodes v).state = .leader →
          register true fail body (c.nodes v).statics req = body req) ∧
        ((c.nodes v).state ≠ .leader →
          register true fail body (c.nodes v).statics req =
            fail (notLeader (c.nodes v).statics)) := by
  have hiff := ((h.hinted c hc).2 v).isLeader_iff
  refine ⟨hiff, fun ρ fail body req ↦ ⟨fun hl ↦ ?_, fun hl ↦ ?_⟩⟩
  · exact register_of_isLeader fail body _ req (hiff.mpr hl) true
  · refine register_of_not_isLeader fail body _ req ?_
    exact Bool.eq_false_iff.mpr fun hs ↦ hl (hiff.mp hs)

/-- Node `0` is elected, and node `1` is still a candidate. -/
theorem leader_gate_exact_trio :
    let ls := [.startElection 0 true, .startElection 1 true, .voteReq 1, .voteReply 0, .sendAes 0,
      .appendReq 0]
    ((trioEnd (fun _ _ ↦ True) ls).nodes 0).statics.isLeader = true ∧
      register true RpcError.toString (fun _ ↦ "entered")
        ((trioEnd (fun _ _ ↦ True) ls).nodes 0).statics [] = "entered" ∧
      register true RpcError.toString (fun _ ↦ "entered")
        ((trioEnd (fun _ _ ↦ True) ls).nodes 1).statics [] =
          "not leader, redirect to unknown" := by
  intro ls
  have hne : trioRun (fun _ _ ↦ True) ls ≠ [] := by decide
  have hgate := leader_gate_exact trio (run_trioRun _ ls hne) List.mem_cons_self
  refine ⟨(hgate 0).1.mpr (by decide), ?_, ?_⟩
  · exact ((hgate 0).2 _ _ _ _).1 (by decide)
  · exact (((hgate 1).2 _ _ _ _).2 (by decide)).trans (by decide)

end Efis
