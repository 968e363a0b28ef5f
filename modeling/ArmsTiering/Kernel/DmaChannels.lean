import ArmsTiering.Core.Transition
import Mathlib.Logic.Function.Basic

/-!
# The DMA channels

The copy routine takes its channels and the size of a transaction from global
variables, which other ioctls set.  Here are those ioctls, and what holds of
the variables after any sequence of them.
-/

namespace ArmsTiering

def armsMaxSizePerDmaRequest : UInt32 := 2 * 1024 * 1024
def armsMaxDmaChans : ℕ := 16

/-- A `struct dma_chan *` other than `NULL`. -/
abbrev DmaChan := ℕ

/-- The global variables, with the channels that the DMA engine has handed out. -/
structure DmaChannels where
  sizePerDmaRequest : UInt32
  chans : ℕ → Option DmaChan
  numChans : ℕ
  acquired : DmaChan → Bool

namespace DmaChannels

def size (g : DmaChannels) : ℕ := g.sizePerDmaRequest.toNat

/-- The variables as the module is loaded. -/
def initial : DmaChannels where
  sizePerDmaRequest := armsMaxSizePerDmaRequest
  chans := fun _ => none
  numChans := 0
  acquired := fun _ => false

/-- `dma_release_channel(arms_chans[i]); arms_chans[i] = NULL` -/
def releaseChan (g : DmaChannels) (i : ℕ) : DmaChannels :=
  match g.chans i with
  | some chan =>
      { g with
        chans := Function.update g.chans i none
        acquired := Function.update g.acquired chan false }
  | none => g

def dmaReleaseChanns (g : DmaChannels) : DmaChannels :=
  { (List.range g.numChans).foldl releaseChan g with
    numChans := 0
    sizePerDmaRequest := armsMaxSizePerDmaRequest }

/-- The acquiring loop of `dma_request_channs`; `grant i` is what
`dma_request_channel` returns for the channel `i`. -/
def acquireChans (grant : ℕ → Option DmaChan) : ℕ → ℕ → DmaChannels → DmaChannels × Bool
  | 0, _, g => (g, true)
  | left + 1, i, g =>
      match grant i with
      | some chan =>
          acquireChans grant left (i + 1)
            { g with
              chans := Function.update g.chans i (some chan)
              acquired := Function.update g.acquired chan true }
      | none =>
          ((List.range i).reverse.foldl releaseChan
            { g with chans := Function.update g.chans i none }, false)

/-- `dma_request_channs`, without its return value. -/
def dmaRequestChanns (g : DmaChannels) (numChanns sizePerDmaRequest : UInt32)
    (grant : ℕ → Option DmaChan) : DmaChannels :=
  let g := if 0 < g.numChans then g.dmaReleaseChanns else g
  let g := { g with
    sizePerDmaRequest :=
      if armsMaxSizePerDmaRequest < sizePerDmaRequest then armsMaxSizePerDmaRequest
      else sizePerDmaRequest }
  let n := min numChanns.toNat armsMaxDmaChans
  let n := if n = 0 then 1 else n
  match acquireChans grant n 0 g with
  | (g, true) => { g with numChans := n }
  | (g, false) => { g with numChans := 0 }

end DmaChannels

/-- The ioctls on the channels. -/
inductive ChannelAction
  | requestChanns (numChanns sizePerDmaRequest : UInt32) (grant : ℕ → Option DmaChan)
  /-- `copy_from_user` fails -/
  | requestFault
  | releaseChanns

def channelStep (g : DmaChannels) : ChannelAction → Option DmaChannels
  | .requestChanns numChanns size grant => some (g.dmaRequestChanns numChanns size grant)
  | .requestFault => some g
  | .releaseChanns => some g.dmaReleaseChanns

namespace DmaChannels

/-- States after any sequence of the ioctls. -/
abbrev Reachable : DmaChannels → Prop := Transition.Reachable (· = initial) channelStep

/-- The first `n` channels point to acquired ones. -/
def AcquiredBelow (g : DmaChannels) (n : ℕ) : Prop :=
  ∀ i < n, ∃ chan, g.chans i = some chan ∧ g.acquired chan = true

theorem AcquiredBelow.acquire {g : DmaChannels} {i : ℕ} (hbelow : g.AcquiredBelow i)
    (chan : DmaChan) :
    AcquiredBelow { g with
      chans := Function.update g.chans i (some chan)
      acquired := Function.update g.acquired chan true } (i + 1) := by
  intro j hj
  rcases eq_or_ne j i with rfl | hne
  · exact ⟨chan, Function.update_self .., Function.update_self ..⟩
  · obtain ⟨other, hother, hacquired⟩ := hbelow j (by omega)
    refine ⟨other, by rw [← hother]; exact Function.update_of_ne hne .., ?_⟩
    rcases eq_or_ne other chan with rfl | hdiff
    · exact Function.update_self ..
    · rw [← hacquired]
      exact Function.update_of_ne hdiff ..

/-- If the loop ends well, all channels that it went through are acquired. -/
theorem acquireChans_acquired {grant : ℕ → Option DmaChan} {left i : ℕ}
    {g result : DmaChannels} (hbelow : g.AcquiredBelow i) (hloop : acquireChans grant left i g = (result, true)) :
    result.AcquiredBelow (i + left) := by
  induction left generalizing i g with
  | zero =>
      obtain rfl := (Prod.mk.inj hloop).1
      exact hbelow
  | succ left ih =>
      rw [acquireChans] at hloop
      cases hgrant : grant i with
      | none =>
          rw [hgrant] at hloop
          exact Bool.noConfusion (Prod.mk.inj hloop).2
      | some chan =>
          rw [hgrant] at hloop
          have hrest := ih (hbelow.acquire chan) hloop
          rwa [show i + (left + 1) = i + 1 + left by omega]

theorem acquiredBelow_zero (g : DmaChannels) : g.AcquiredBelow 0 := by
  intro i hi
  exact absurd hi (Nat.not_lt_zero i)

/-- The channels below `arms_num_chans` are in the array and acquired. -/
structure Wf (g : DmaChannels) : Prop where
  bound : g.numChans ≤ armsMaxDmaChans
  acquired : g.AcquiredBelow g.numChans

theorem Wf.of_none {g : DmaChannels} (hnone : g.numChans = 0) : g.Wf := by
  refine ⟨hnone ▸ Nat.zero_le _, ?_⟩
  rw [hnone]
  exact g.acquiredBelow_zero

theorem dmaRequestChanns_wf (g : DmaChannels) (numChanns size : UInt32)
    (grant : ℕ → Option DmaChan) : (g.dmaRequestChanns numChanns size grant).Wf := by
  unfold dmaRequestChanns
  dsimp only
  split
  · rename_i result hloop
    have hall := acquireChans_acquired (acquiredBelow_zero _) hloop
    rw [Nat.zero_add] at hall
    refine ⟨?_, hall⟩
    dsimp only
    unfold armsMaxDmaChans
    split <;> omega
  · exact .of_none rfl

theorem channelStep_wf {g next : DmaChannels} {action : ChannelAction} (hwf : g.Wf)
    (hstep : channelStep g action = some next) : next.Wf := by
  cases action with
  | requestFault =>
      obtain rfl := Option.some.inj hstep
      exact hwf
  | releaseChanns =>
      obtain rfl := Option.some.inj hstep
      exact .of_none rfl
  | requestChanns numChanns size grant =>
      obtain rfl := Option.some.inj hstep
      exact g.dmaRequestChanns_wf numChanns size grant

theorem Reachable.wf {g : DmaChannels} (hreach : g.Reachable) : g.Wf := by
  refine Transition.Reachable.invariant Wf ?_ (fun _ _ _ => channelStep_wf) hreach
  rintro g rfl
  exact .of_none rfl

end DmaChannels

end ArmsTiering
