import SharedWorkspace.Failure
import SharedWorkspace.Resource

/-!
Subscribers tell how resources of a workspace stand in relation to their remote counterparts.
-/

namespace SharedWorkspace

structure SubscriberId where
  qualifier : String
  localName : String
  deriving DecidableEq

namespace SubscriberId

def display (id : SubscriberId) : String :=
  id.qualifier ++ ":" ++ id.localName

instance : Ord SubscriberId := ⟨compareLex (compareOn qualifier) (compareOn localName)⟩

instance : Std.TransOrd SubscriberId :=
  inferInstanceAs (Std.TransCmp (compareLex (compareOn qualifier) (compareOn localName)))

instance : Std.LawfulEqOrd SubscriberId where
  eq_of_compare {a b} h := by
    have h : (compare a.qualifier b.qualifier).then (compare a.localName b.localName) = .eq := h
    rw [Ordering.then_eq_eq] at h
    cases a; cases b
    have h₁ := Std.LawfulEqCmp.eq_of_compare h.1
    have h₂ := Std.LawfulEqCmp.eq_of_compare h.2
    simp_all

end SubscriberId

inductive SyncKind where
  | inSync
  | outgoing
  | incoming
  | conflicting
  deriving DecidableEq

structure Subscriber where
  id : SubscriberId
  /--
  How a resource stands; nothing for resources that the subscriber does not manage.
  -/
  syncKind : Resource → Except Failure (Option SyncKind)

namespace Subscriber

def contentDiffers (s : Subscriber) (r : Resource) : Except Failure Bool :=
  match s.syncKind r with
  | .error e => .error e
  | .ok none => .ok false
  | .ok (some kind) => .ok (kind ≠ .inSync)

def remoteContents (_ : Subscriber) (_ : Resource) : Except Failure (Option (List UInt8)) :=
  .ok none

def remoteMembers (_ : Subscriber) (_ : Resource) : Except Failure (Option (List Resource)) :=
  .ok none

end Subscriber
end SharedWorkspace
