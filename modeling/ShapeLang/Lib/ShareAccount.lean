import Mathlib

/-!
# Accounts of shares

A counted reference is a share of an object. Who keeps shares for others can be held to account: the
shares it received and the ones it made by cloning are held, handed to somebody or released, each
exactly once. An operation adds to the four lists of an account, and keeps the balance when the
change of what is held accounts for the rest.
-/

namespace ShapeLang.Lib

structure ShareAccount (S : Type) where
  received : List S
  cloned : List S
  handed : List S
  released : List S

namespace ShareAccount

variable {S : Type}

def empty : ShareAccount S := ⟨[], [], [], []⟩

/-- Add the shares of an operation. -/
def record (account : ShareAccount S) (received cloned handed released : List S) : ShareAccount S :=
  ⟨account.received ++ received, account.cloned ++ cloned, account.handed ++ handed,
    account.released ++ released⟩

/-- Every share is held, handed out or released, and only one of these. -/
def Balanced (account : ShareAccount S) (held : List S) : Prop :=
  (account.received + account.cloned : Multiset S) = held + account.handed + account.released

theorem balanced_empty : (empty : ShareAccount S).Balanced [] := rfl

theorem Balanced.record {account : ShareAccount S} {held held' received cloned handed released : List S}
    (h : account.Balanced held)
    (htransfer : (held' + handed + released : Multiset S) = held + received + cloned) :
    (account.record received cloned handed released).Balanced held' := by
  show ((account.received ++ received : List S) + (account.cloned ++ cloned : List S) : Multiset S) =
    held' + (account.handed ++ handed : List S) + (account.released ++ released : List S)
  simp only [← Multiset.coe_add]
  calc (account.received + received + (account.cloned + cloned) : Multiset S)
      = (account.received + account.cloned) + (received + cloned) := by abel
    _ = (held + account.handed + account.released) + (received + cloned) := by rw [h]
    _ = (held + received + cloned) + account.handed + account.released := by abel
    _ = (held' + handed + released) + account.handed + account.released := by rw [htransfer]
    _ = held' + (account.handed + handed) + (account.released + released) := by abel

end ShareAccount

end ShapeLang.Lib
