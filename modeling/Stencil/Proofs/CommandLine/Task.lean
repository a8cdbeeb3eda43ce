import Stencil.CommandLine.FileTree

/-! Programs as the requests they make of their system, one after the other, so that several can take turns. What a task
does and what others do to the same files meanwhile are held against one relation between states of the system. -/

namespace Stencil

/-- What a program asks of its system. -/
inductive Request where
  | status (path : Bytes)
  | entries (path : Bytes)
  | read (path : Bytes)
  | write (path content : Bytes)
  | append (path content : Bytes)
  | makeDirectory (path : Bytes)
  | print (text : Bytes)
  | complain (text : Bytes)

namespace Request

def Answer : Request → Type
  | .status _ => Except Obstacle FileKind
  | .entries _ => List (Bytes × FileKind)
  | .read _ => Except Obstacle Bytes
  | .write .. => Except Obstacle Unit
  | .append .. => Except Obstacle Unit
  | .makeDirectory _ => Except Obstacle Unit
  | .print _ => Unit
  | .complain _ => Unit

def perform : (r : Request) → StateM World r.Answer
  | .status path => World.host.status path
  | .entries path => World.host.entries path
  | .read path => World.host.read path
  | .write path content => World.host.write path content
  | .append path content => World.host.append path content
  | .makeDirectory path => World.host.makeDirectory path
  | .print text => World.host.print text
  | .complain text => World.host.complain text

end Request

/-- A program that is done, or waits for the answer to its next request. -/
inductive Task (α : Type) where
  | done (a : α)
  | ask (request : Request) (next : request.Answer → Task α)

namespace Task

variable {α β : Type}

def bind : Task α → (α → Task β) → Task β
  | .done a, f => f a
  | .ask request next, f => .ask request fun answer => (next answer).bind f

instance : Monad Task where
  pure := .done
  bind := .bind

def host : Host Task where
  status path := .ask (.status path) .done
  entries path := .ask (.entries path) .done
  read path := .ask (.read path) .done
  write path content := .ask (.write path content) .done
  append path content := .ask (.append path content) .done
  makeDirectory path := .ask (.makeDirectory path) .done
  print text := .ask (.print text) .done
  complain text := .ask (.complain text) .done

def run : Task α → StateM World α
  | .done a => pure a
  | .ask request next => do (next (← request.perform)).run

theorem run_bind (t : Task α) (f : α → Task β) : (t >>= f).run = t.run >>= fun a => (f a).run := by
  induction t with
  | done a => rfl
  | ask request next ih =>
    change (do ((next (← request.perform)).bind f).run) = (do (next (← request.perform)).run) >>= fun a => (f a).run
    rw [bind_assoc]
    exact congrArg (request.perform >>= ·) (funext ih)

/-- Whatever others do within `R` between its requests, the task stays within `R` and ends as `Q` says. -/
def Within (R : World → World → Prop) (Q : α → World → Prop) : Task α → World → Prop
  | .done a, w => ∀ w', R w w' → Q a w'
  | .ask request next, w => ∀ w', R w w' →
      R w' (request.perform w').2 ∧ (next (request.perform w').1).Within R Q (request.perform w').2

variable {R : World → World → Prop} {Q : α → World → Prop} {P : β → World → Prop}

theorem Within.later (htrans : ∀ a b c, R a b → R b c → R a c) {t : Task α} {w w' : World} (h : t.Within R Q w)
    (hw : R w w') : t.Within R Q w' := by
  cases t with
  | done a => exact fun w'' hw' => h w'' (htrans _ _ _ hw hw')
  | ask request next => exact fun w'' hw' => h w'' (htrans _ _ _ hw hw')

theorem Within.frame {K : World → Prop} (hK : ∀ w w', K w → R w w' → K w') {t : Task α} {w : World} (h : t.Within R Q w)
    (hw : K w) : t.Within R (fun a w => Q a w ∧ K w) w := by
  induction t generalizing w with
  | done a => exact fun w' hw' => ⟨h w' hw', hK w w' hw hw'⟩
  | ask request next ih => exact fun w' hw' => ⟨(h w' hw').1, ih _ (h w' hw').2 (hK _ _ (hK _ _ hw hw') (h w' hw').1)⟩

theorem Within.bind (hrefl : ∀ w, R w w) {t : Task α} {f : α → Task β} {w : World} (h : t.Within R Q w)
    (hf : ∀ a w', Q a w' → (f a).Within R P w') : (t >>= f).Within R P w := by
  induction t generalizing w with
  | done a => exact hf a w (h w (hrefl w))
  | ask request next ih => exact fun w' hw => ⟨(h w' hw).1, ih _ (h w' hw).2⟩

end Task

end Stencil
