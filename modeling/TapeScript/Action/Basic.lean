import TapeScript.Device

/-! What a command does: a finite dialogue with the device. An action sees nothing but
the answers to its requests, and may go on after a refused one. -/

namespace TapeScript

inductive Action where
  | done
  | fail (cause : Fault)
  | ask (request : Request) (next : Except Fault request.Answer → Action)

namespace Action

/-- Puts the requests to the device one after the other. -/
def run : Action → Device → Outcome Device
  | done, d => .ok d
  | fail cause, d => .fault cause d
  | ask request next, d =>
    match d.perform request with
    | (answer, d) => (next answer).run d

/-- Asks, and fails with the device's fault if the request is refused. -/
def demand (request : Request) (next : request.Answer → Action) : Action :=
  ask request fun
    | .ok answer => next answer
    | .error cause => fail cause

/-- Does the second action unless the first one fails. -/
def andThen : Action → Action → Action
  | done, b => b
  | fail cause, _ => fail cause
  | ask request next, b => ask request fun answer => (next answer).andThen b

/-- Every refused request is the end of the action, with the device's own fault. -/
inductive Strict : Action → Prop where
  | done : Strict done
  | fail (cause : Fault) : Strict (fail cause)
  | demand (request : Request) (next : request.Answer → Action)
      (h : ∀ answer, Strict (next answer)) : Strict (demand request next)

@[simp] theorem run_done (d : Device) : done.run d = .ok d := rfl

@[simp] theorem run_fail (cause : Fault) (d : Device) :
    (fail cause).run d = .fault cause d := rfl

theorem run_andThen (a b : Action) (d : Device) :
    (a.andThen b).run d =
      match a.run d with
      | .ok d => b.run d
      | .fault cause d => .fault cause d := by
  induction a generalizing d with
  | done => rfl
  | fail => rfl
  | ask request next ih => simp only [andThen, run, ih]

theorem andThen_demand (request : Request) (next : request.Answer → Action) (b : Action) :
    (demand request next).andThen b = demand request fun answer => (next answer).andThen b := by
  simp only [demand, andThen]
  congr 1
  funext answer
  cases answer <;> simp [andThen]

theorem Strict.andThen {a b : Action} (ha : Strict a) (hb : Strict b) :
    Strict (a.andThen b) := by
  induction ha with
  | done => exact hb
  | fail cause => exact .fail cause
  | demand request next _ ih => exact andThen_demand request next b ▸ .demand request _ ih

end Action

end TapeScript
