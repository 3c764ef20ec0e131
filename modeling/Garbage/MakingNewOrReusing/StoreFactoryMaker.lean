import Garbage.Foundation.Machine

/-!
# Store factories

A store factory gives out containers of a value.  Who disposes the value is the
mode: nobody here, the factory, or the container of a value that was made for
it.  Six classes implement that; `Disposables` are those with a `Dispose`.

A call of the `valueFactory` is part of the call that makes it, so the call says
what comes of it.  A `Dispose` of a value is the last thing that a call does, so
what it calls in turn comes as calls of their own, and if it throws, the state
is the same.

`made` are the containers as they were when they were made, `disposals` has the
values whose `Dispose` was called, with who called it.
-/

namespace Garbage.MakingNewOrReusing

open Foundation (Machine)

inductive StoreFactoryMode
  | storingValueAndMakerWillDisposingValue
  | makingNewValue

inductive DisposableStoreFactoryMode
  | storingAndDisposingValue
  | storingValueAndMakerWillDisposingValue
  | makingNewValue

def StoreFactoryMode.toDisposableStoreFactoryMode : StoreFactoryMode → DisposableStoreFactoryMode
  | .makingNewValue => .makingNewValue
  | .storingValueAndMakerWillDisposingValue => .storingValueAndMakerWillDisposingValue

inductive Error
  | argument (message : String)
  | argumentNull (message : String)
  | invalidOperation (message : String)
  | objectDisposed (name : String)
  | nullReference
  /-- what the value or its factory throws -/
  | user (n : Nat)
  deriving DecidableEq

variable {α : Type}

/-! ### Containers -/

/-- A container, with null once it is disposed. -/
inductive Container (α : Type)
  | storedValue (value : Option α)
  | storedDisposableValue (value : Option α)
  deriving DecidableEq

namespace Container

def value : Container α → Except Error α
  | storedValue (some value) | storedDisposableValue (some value) => .ok value
  | storedValue none | storedDisposableValue none => .error (.objectDisposed "Value")

/-- The container after `Dispose`, and the value whose `Dispose` it calls. -/
def dispose : Container α → Container α × Option α
  | storedValue _ => (storedValue none, none)
  | storedDisposableValue value => (storedDisposableValue none, value)

end Container

/-! ### Factories -/

/-- What a call of the factory of values gives: null, a value or an exception. -/
abbrev Made (α : Type) : Type := Except Error (Option α)

/-- `Stored` and `Factory`. -/
inductive StoreFactory (α : Type)
  | stored (value : α)
  | factory
  deriving DecidableEq

namespace StoreFactory

def newStored : Option α → Except Error (StoreFactory α)
  | none => .error (.argumentNull "Not supported null for stored value")
  | some value => .ok (stored value)

/-- `valueFactory` is null, or gives `made` if it is called. -/
def newFactory (valueFactory : Option (Made α)) : Except Error (StoreFactory α) :=
  match valueFactory with
  | none => .error (.argumentNull "Not supported null for valueFactory")
  | some _ => .ok factory

def valueContainer (made : Made α) : StoreFactory α → Except Error (Container α)
  | stored value => .ok (.storedValue (some value))
  | factory => do
    match ← made with
    | none => .error (.invalidOperation "Not supported null returning factory method")
    | some value => .ok (.storedDisposableValue (some value))

end StoreFactory

/-- `DisposableStoreFactory` and `NotNeedDisposeStoreFactoryAdapter`, with null
once they are disposed. -/
inductive Disposable (α : Type)
  | disposableStoreFactory (value : Option α)
  | notNeedDisposeStoreFactoryAdapter (storeFactory : Option (StoreFactory α))
  deriving DecidableEq

namespace Disposable

def newDisposableStoreFactory : Option α → Except Error (Disposable α)
  | none => .error (.argumentNull "Not supported null for stored value")
  | some value => .ok (disposableStoreFactory (some value))

def valueContainer (made : Made α) : Disposable α → Except Error (Container α)
  | disposableStoreFactory (some value) => .ok (.storedValue (some value))
  | notNeedDisposeStoreFactoryAdapter (some storeFactory) => storeFactory.valueContainer made
  | disposableStoreFactory none | notNeedDisposeStoreFactoryAdapter none =>
    .error (.objectDisposed "ValueContainer")

/-- The factory after `Dispose`, and the value whose `Dispose` it calls. -/
def dispose : Disposable α → Disposable α × Option α
  | disposableStoreFactory value => (disposableStoreFactory none, value)
  | notNeedDisposeStoreFactoryAdapter _ => (notNeedDisposeStoreFactoryAdapter none, none)

end Disposable

/-! ### StoreFactoryMaker -/

def alreadyCreated : Error :=
  .argument ("Logic error. Not allowed mode=$MakingNewValue. Value already created. " ++
    "Can't making new from already created.")

/-- The value that the factory gives at once. -/
def callValueFactory : Option (Made α) → Except Error (Option α)
  | none => .error (.argumentNull "Not supported null valueFactory")
  | some made => made

def make (value : Option α) : StoreFactoryMode → Except Error (StoreFactory α)
  | .storingValueAndMakerWillDisposingValue => StoreFactory.newStored value
  | .makingNewValue => .error alreadyCreated

def makeFromFactory (valueFactory : Option (Made α)) :
    StoreFactoryMode → Except Error (StoreFactory α)
  | .storingValueAndMakerWillDisposingValue => do
    StoreFactory.newStored (← callValueFactory valueFactory)
  | .makingNewValue => StoreFactory.newFactory valueFactory

def makeDisposable (value : Option α) : DisposableStoreFactoryMode → Except Error (Disposable α)
  | .storingAndDisposingValue => Disposable.newDisposableStoreFactory value
  | .storingValueAndMakerWillDisposingValue => do
    let storeFactory ← StoreFactory.newStored value
    return .notNeedDisposeStoreFactoryAdapter storeFactory
  | .makingNewValue => .error alreadyCreated

def makeDisposableFromFactory (valueFactory : Option (Made α)) :
    DisposableStoreFactoryMode → Except Error (Disposable α)
  | .storingAndDisposingValue =>
    match valueFactory with
    | none => .error .nullReference
    | some made => do Disposable.newDisposableStoreFactory (← made)
  | .storingValueAndMakerWillDisposingValue => do
    let storeFactory ← StoreFactory.newStored (← callValueFactory valueFactory)
    return .notNeedDisposeStoreFactoryAdapter storeFactory
  | .makingNewValue => do
    let storeFactory ← StoreFactory.newFactory valueFactory
    return .notNeedDisposeStoreFactoryAdapter storeFactory

/-- A factory as the consumer gets it, with a `Dispose` or without. -/
inductive Product (α : Type)
  | plain (storeFactory : StoreFactory α)
  | disposable (storeFactory : Disposable α)
  deriving DecidableEq

def Product.valueContainer (made : Made α) : Product α → Except Error (Container α)
  | plain storeFactory => storeFactory.valueContainer made
  | disposable storeFactory => storeFactory.valueContainer made

/-- The members that make a factory, with their arguments.  `Make` with a mode of
the other kind is `MakeDisposable`. -/
inductive Maker (α : Type)
  | make (value : Option α) (mode : StoreFactoryMode)
  | makeFromFactory (valueFactory : Option (Made α)) (mode : StoreFactoryMode)
  | makeDisposable (value : Option α) (mode : DisposableStoreFactoryMode)
  | makeDisposableFromFactory (valueFactory : Option (Made α)) (mode : DisposableStoreFactoryMode)

def Maker.run : Maker α → Except Error (Product α)
  | make value mode => Product.plain <$> MakingNewOrReusing.make value mode
  | makeFromFactory valueFactory mode =>
    Product.plain <$> MakingNewOrReusing.makeFromFactory valueFactory mode
  | makeDisposable value mode => Product.disposable <$> MakingNewOrReusing.makeDisposable value mode
  | makeDisposableFromFactory valueFactory mode =>
    Product.disposable <$> MakingNewOrReusing.makeDisposableFromFactory valueFactory mode

def Maker.mode : Maker α → DisposableStoreFactoryMode
  | make _ mode | makeFromFactory _ mode => mode.toDisposableStoreFactoryMode
  | makeDisposable _ mode | makeDisposableFromFactory _ mode => mode

/-! ### Consumers -/

inductive Owner
  | factory
  | container (i : Nat)
  deriving DecidableEq

structure State (α : Type) where
  product : Product α
  /-- the containers as they are, and as they were made -/
  containers : List (Container α)
  made : List (Container α)
  disposals : List (Owner × α)
  deriving DecidableEq

inductive Call (α : Type)
  /-- `ValueContainer`, with what the factory of values gives if it is called -/
  | valueContainer (made : Made α)
  /-- `Dispose` of the factory; `error`: what the `Dispose` of a value throws -/
  | disposeFactory (error : Option Error)
  | value (i : Nat)
  | disposeContainer (i : Nat) (error : Option Error)

inductive Response (α : Type)
  | container (i : Nat)
  | value (value : α)
  | done
  | threw (error : Error)
  deriving DecidableEq

/-- The end of a `Dispose`: what the `Dispose` of the value throws, if it is called. -/
def Response.ofDispose (value : Option α) (error : Option Error) : Response α :=
  match value, error with
  | some _, some error => .threw error
  | _, _ => .done

def call (s : State α) : Call α → Option (State α × Response α)
  | .valueContainer made =>
    match s.product.valueContainer made with
    | .ok container => some ({ s with
        containers := s.containers ++ [container], made := s.made ++ [container] },
        .container s.containers.length)
    | .error error => some (s, .threw error)
  | .disposeFactory error =>
    match s.product with
    | .plain _ => none
    | .disposable storeFactory =>
      let (storeFactory, value) := storeFactory.dispose
      some ({ s with
        product := .disposable storeFactory
        disposals := s.disposals ++ value.toList.map (Prod.mk .factory) },
        .ofDispose value error)
  | .value i =>
    (s.containers[i]?).map fun container =>
      match container.value with
      | .ok value => (s, .value value)
      | .error error => (s, .threw error)
  | .disposeContainer i error =>
    (s.containers[i]?).map fun container =>
      let (container, value) := container.dispose
      ({ s with
        containers := s.containers.set i container
        disposals := s.disposals ++ value.toList.map (Prod.mk (.container i)) },
        .ofDispose value error)

def start (product : Product α) : State α := ⟨product, [], [], []⟩

/-- The calls of the consumers of a product. -/
def machine (product : Product α) : Machine (State α) (Call α) where
  init s := s = start product
  next s c := (call s c).map Prod.fst

end Garbage.MakingNewOrReusing
