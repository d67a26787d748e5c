import RelStorage.Cache.Invariant

namespace RelStorage

variable {calls : List Call} {w : World} {lru entry previous : Nat} {obj : SizedLRU}

namespace Inv

end Inv

end RelStorage
